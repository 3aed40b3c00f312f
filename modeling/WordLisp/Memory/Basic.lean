import WordLisp.Search
import WordLisp.Word

/-!
# Paged memory

A memory holds a word at every address from 0 on, all of them zero at first. Words live in pages of
one size, aligned to multiples of it and allocated by the first store into them, so that distant
addresses cost nothing. A limit refuses every access at or past it.

The bases of the pages and their words are two tables side by side. A store or a load of several
words goes page by page: each round copies as many words as the page of the current address has from
there on.

Addresses are words themselves, and their arithmetic wraps around. A page size that is negative or
too large admits no page: a store then leaves a page without words behind, and every access to that
page is refused, be it that it would look outside the page or that its rounds would copy nothing for
ever.
-/

namespace WordLisp

/-- What an access does. -/
inductive Access where
  | load
  | store
  deriving DecidableEq, Repr

/-- The name of an access in messages. -/
def Access.name : Access → String
  | .load => "load"
  | .store => "stor"

/-- Why a memory refuses an access. -/
inductive MemoryError where
  /-- The address is negative. -/
  | negative (access : Access) (address : Word)
  /-- The address is at or past the limit. -/
  | pastLimit (access : Access) (address limit : Word)
  /-- The page of the address could not be allocated. -/
  | noPage
  deriving DecidableEq, Repr

/-- The message of a refused access. -/
def MemoryError.message : MemoryError → String
  | .negative access address => "invalid " ++ access.name ++ " @" ++ Word.render address
  | .pastLimit access address limit =>
      "memory limit " ++ Word.render limit ++ " exceeded by " ++ access.name ++ " @" ++
        Word.render address
  | .noPage => "page allocation failed"

/-- Consecutive words from address `base` on. -/
structure Page where
  base : Word
  words : Array Word

/-- The word at an address of a page. An address outside the page has none. -/
def Page.word? (page : Page) (address : Word) : Option Word :=
  page.words[(address - page.base).toNatClampNeg]?

/-- A memory. -/
structure Memory where
  /-- The number of words of a page; zero until the first store chooses the default. -/
  pageSize : Word
  /-- The first address that is refused; zero if there is none. -/
  limit : Word
  /-- The bases of the pages allocated so far, in increasing order. -/
  bases : Array Word
  /-- The words of these pages, page by page. -/
  contents : Array (Array Word)

namespace Memory

/-- The page size of a memory that was given none. -/
def defaultPageSize : Word := 256

/-- The largest number of words a page may have. -/
def maxPageSize : Word := 0x200000000000

/-- A memory without pages. -/
def empty (pageSize limit : Word) : Memory :=
  ⟨pageSize, limit, #[], #[]⟩

/-- The address after the last word of the last page. -/
def size (memory : Memory) : Word :=
  match memory.bases.back?, memory.contents[memory.bases.size - 1]? with
  | some base, some words => base + Int64.ofNat words.size
  | _, _ => 0

/-- Why one address is refused, if it is. -/
def refusal? (memory : Memory) (access : Access) (address : Word) : Option MemoryError :=
  if address < 0 then
    some (.negative access address)
  else if memory.limit ≠ 0 ∧ memory.limit ≤ address then
    some (.pastLimit access address memory.limit)
  else
    none

/-- Why `count` addresses from `address` on are refused, if they are. The first is looked at before
the last, and those between not at all. -/
def rangeRefusal? (memory : Memory) (access : Access) (address : Word) (count : Nat) :
    Option MemoryError :=
  if count = 0 then
    none
  else
    memory.refusal? access address <|>
      memory.refusal? access (address + Int64.ofNat count - 1)

/-! ## The tables -/

/-- The base of the page that an address belongs to. -/
def pageBase (memory : Memory) (address : Word) : Word :=
  address / memory.pageSize * memory.pageSize

/-- Where the page with this base is among the pages, or would have to be inserted. -/
def pageIndex (memory : Memory) (base : Word) : Nat :=
  search (fun i ↦ memory.bases[i]?.any (base ≤ ·)) 0 memory.bases.size

/-- Where the page of an address is among the pages, or would have to be inserted, and whether it
has been allocated. -/
def findPage (memory : Memory) (address : Word) : Nat × Bool :=
  let base := memory.pageBase address
  let index := memory.pageIndex base
  (index, memory.bases[index]? = some base)

/-- The page that an address belongs to, if it has been allocated. -/
def page? (memory : Memory) (address : Word) : Option Page :=
  let (index, allocated) := memory.findPage address
  if allocated then memory.contents[index]?.map (Page.mk (memory.pageBase address)) else none

/-- The memory with another base at an index, and those from there on moved up. -/
def insertBase (memory : Memory) (index : Nat) (base : Word) : Memory :=
  { memory with bases := memory.bases.insertIdxIfInBounds index base }

/-- The memory with other words at an index, and those from there on moved up. -/
def insertWords (memory : Memory) (index : Nat) (words : Array Word) : Memory :=
  { memory with contents := memory.contents.insertIdxIfInBounds index words }

/-- The words of a fresh page. If the size admits no page there are none. -/
def freshWords (size : Word) : Array Word :=
  if 0 < size ∧ size ≤ maxPageSize then Array.replicate size.toNatClampNeg 0 else #[]

/-- The memory with the page of an address allocated. -/
def allocate (memory : Memory) (address : Word) : Memory :=
  let (index, allocated) := memory.findPage address
  if allocated then
    memory
  else
    (memory.insertBase index (memory.pageBase address)).insertWords index
      (freshWords memory.pageSize)

/-- The memory with a page size chosen. -/
def withPageSize (memory : Memory) : Memory :=
  if memory.pageSize = 0 then { memory with pageSize := defaultPageSize } else memory

/-! ## Loads -/

/-- The word at an address that is not refused: zero if its page has not been allocated. -/
def word (memory : Memory) (address : Word) : Except MemoryError Word :=
  match if memory.contents.isEmpty then none else memory.page? address with
  | some page =>
      match page.word? address with
      | some word => .ok word
      | none => .error .noPage
  | none => .ok 0

/-- Load the word at an address. -/
def load (memory : Memory) (address : Word) : Except MemoryError Word :=
  match memory.refusal? .load address with
  | some error => .error error
  | none => memory.word address

/-- Copy at most `count` words from an address on, up to the end of its page. A page that has not
been allocated holds zeros. -/
def copyFrom (memory : Memory) (address : Word) (count : Nat) : Except MemoryError (List Word) :=
  match memory.page? address with
  | some page =>
      let offset := address - page.base
      if offset < 0 ∨ page.words.size < offset.toNatClampNeg then .error .noPage
      else .ok ((page.words.toList.drop offset.toNatClampNeg).take count)
  | none =>
      let room := memory.pageBase address + memory.pageSize - address
      if room < 0 then .error .noPage else .ok (List.replicate (min room.toNatClampNeg count) 0)

/-- A load on its way: so many words are still to be loaded from an address on. -/
structure Loading where
  address : Word
  left : Nat
  loaded : List Word := []

/-- One round of a load copies words of one page. -/
def Loading.round (memory : Memory) (loading : Loading) : Except MemoryError Loading := do
  let words ← memory.copyFrom loading.address loading.left
  return ⟨loading.address + Int64.ofNat words.length, loading.left - words.length,
    loading.loaded ++ words⟩

/-- Go on with a load round by round. -/
def Loading.run (memory : Memory) : Nat → Loading → Except MemoryError (List Word)
  | 0, loading => if loading.left = 0 then .ok loading.loaded else .error .noPage
  | rounds + 1, loading =>
      if loading.left = 0 then
        .ok loading.loaded
      else
        match loading.round memory with
        | .ok next => next.run memory rounds
        | .error error => .error error

/-- Load `count` words from `address` on. There are no more rounds than words, as each copies one or
more. -/
def loadRange (memory : Memory) (address : Word) (count : Nat) :
    Except MemoryError (List Word) :=
  match memory.rangeRefusal? .load address count with
  | some error => .error error
  | none =>
      if memory.contents.isEmpty then .ok (List.replicate count 0)
      else Loading.run memory count { address, left := count }

/-- Load as many words from `address` on as a buffer holds, in place of what it holds. If the load
is refused the buffer stays as it was. -/
def loadInto (memory : Memory) (address : Word) (buffer : List Word) :
    List Word × Option MemoryError :=
  match memory.loadRange address buffer.length with
  | .ok words => (words, none)
  | .error error => (buffer, some error)

/-! ## Stores -/

/-- Copy values over the words from an offset on, as many as there are words. What is left of the
values comes back. -/
def copyOver (words : Array Word) (offset : Nat) : List Word → Array Word × List Word
  | [] => (words, [])
  | value :: values =>
      if offset < words.size then copyOver (words.setIfInBounds offset value) (offset + 1) values
      else (words, value :: values)

/-- Copy values into the page of an address from there on, up to its end. What is left of them comes
back. -/
def copyTo (memory : Memory) (address : Word) (values : List Word) : Memory × List Word :=
  let (index, _) := memory.findPage address
  match memory.contents[index]? with
  | some words =>
      let (words, rest) :=
        copyOver words (address - memory.pageBase address).toNatClampNeg values
      ({ memory with contents := memory.contents.setIfInBounds index words }, rest)
  | none => (memory, values)

/-- A store on its way: these values are still to be stored from an address on. -/
structure Storing where
  memory : Memory
  address : Word
  values : List Word

/-- One round of a store fills one page, which is allocated if it has not been. -/
def Storing.round (storing : Storing) : Storing :=
  let (memory, rest) :=
    (storing.memory.allocate storing.address).copyTo storing.address storing.values
  ⟨memory, storing.address + Int64.ofNat (storing.values.length - rest.length), rest⟩

/-- Go on with a store round by round. -/
def Storing.run : Nat → Storing → Memory × Option MemoryError
  | 0, storing => (storing.memory, if storing.values.isEmpty then none else some .noPage)
  | rounds + 1, storing =>
      if storing.values.isEmpty then (storing.memory, none) else storing.round.run rounds

/-- Store words from an address on. If the first or the last address is refused nothing changes.
There are no more rounds than words, as each stores one or more. -/
def store (memory : Memory) (address : Word) (values : List Word) :
    Memory × Option MemoryError :=
  match memory.rangeRefusal? .store address values.length with
  | some error => (memory, some error)
  | none =>
      match values with
      | [] => (memory, none)
      | values => Storing.run values.length ⟨memory.withPageSize, address, values⟩

end Memory

end WordLisp
