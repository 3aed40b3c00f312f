/-!
# Files

A file tree holds files and directories under their paths. `FileTree.find` follows a path name from
the working directory, or from the root if it starts with a slash: `.` and an empty part stay where
they are, `..` goes up, and every other part must name something in the directory that has been
reached.
-/

namespace WordLisp.Command

/-- What a path leads to. -/
inductive File where
  | text (bytes : ByteArray)
  | directory

/-- Why a path cannot be opened. -/
inductive OpenError where
  | missing
  | notDirectory
  | nameTooLong
  deriving DecidableEq, Repr

/-- The message of a path that cannot be opened. -/
def OpenError.message : OpenError → String
  | .missing => "no such file or directory"
  | .notDirectory => "not a directory"
  | .nameTooLong => "file name too long"

/-- Files and directories under the parts of their paths from the root, and the path of the working
directory. Whatever stands above one of them is a directory. -/
structure FileTree where
  entries : List (List String × File)
  here : List String

namespace FileTree

/-- The longest part of a path, in bytes. -/
def maxPart : Nat := 255

/-- The longest path name, in bytes. -/
def maxName : Nat := 4095

/-- The parts of a path name. -/
def parts (name : String) : List String :=
  name.splitOn "/"

/-- What a path from the root stands for. -/
def file? (tree : FileTree) (path : List String) : Option File :=
  if path.isPrefixOf tree.here then
    some .directory
  else
    tree.entries.lookup path <|>
      if tree.entries.any (path.isPrefixOf ·.1) then some .directory else none

/-- Follow the parts of a path from a place in the tree. -/
def follow (tree : FileTree) (path : List String) (file : File) :
    List String → Except OpenError File
  | [] => .ok file
  | part :: rest =>
      match file with
      | .text _ => .error .notDirectory
      | .directory =>
          if part = "" ∨ part = "." then
            tree.follow path .directory rest
          else if part = ".." then
            tree.follow path.dropLast .directory rest
          else if maxPart < part.utf8ByteSize then
            .error .nameTooLong
          else
            match tree.file? (path ++ [part]) with
            | some file => tree.follow (path ++ [part]) file rest
            | none => .error .missing

/-- What a path name stands for. -/
def find (tree : FileTree) (name : String) : Except OpenError File :=
  if name.isEmpty then .error .missing
  else if maxName < name.utf8ByteSize then .error .nameTooLong
  else tree.follow (if name.startsWith "/" then [] else tree.here) .directory (parts name)

/-- A tree of files under path names from the root, with a working directory and the files in it
under path names from there. -/
def ofNames (here : String) (inside outside : List (String × File)) : FileTree :=
  let clean (name : String) : List String := (parts name).filter (· ≠ "")
  { here := clean here
    entries :=
      inside.map (fun (name, file) ↦ (clean here ++ clean name, file)) ++
      outside.map fun (name, file) ↦ (clean name, file) }

end FileTree

end WordLisp.Command
