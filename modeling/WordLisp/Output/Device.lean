/-!
# Devices

A device is offered bytes and takes as many of them as it likes. It answers with the number of bytes
it took, and maybe with an error; it may take too little without one. What it answers may depend on
how often it was asked and on what it has taken before, so a device can fail at any time.
-/

namespace WordLisp

/-- The answer to a write: how many bytes were taken, and the error, if there was one. -/
structure WriteResult where
  count : Nat
  error? : Option String
  deriving DecidableEq

/-- A place that bytes go to. -/
structure Device where
  /-- The answer to an offer, from the number of earlier offers, what was taken of them, and the
  bytes that are offered now. -/
  respond : Nat → ByteArray → ByteArray → WriteResult
  /-- What it has been offered, offer by offer. -/
  offered : Array ByteArray := #[]
  /-- What it has taken. -/
  taken : ByteArray := .empty

namespace Device

/-- A device that takes everything. -/
def unlimited : Device where
  respond _ _ offer := ⟨offer.size, none⟩

/-- A device that takes `capacity` bytes in all. Of an offer that does not fit it takes the part
that does, and answers with the error `refusal?`. -/
def limited (capacity : Nat) (refusal? : Option String) : Device where
  respond _ taken offer :=
    let count := min offer.size (capacity - taken.size)
    ⟨count, if count < offer.size then refusal? else none⟩

/-- A device that takes nothing and answers with this error. -/
def failing (message : String) : Device :=
  limited 0 (some message)

/-- Offer bytes to a device. It cannot take more than it is offered. -/
def write (device : Device) (offer : ByteArray) : Device × WriteResult :=
  let answer := device.respond device.offered.size device.taken offer
  let count := min answer.count offer.size
  let next := { device with
    offered := device.offered.push offer
    taken := device.taken ++ offer.extract 0 count }
  (next, { answer with count })

/-- Offer pieces one by one, up to the first that fails. The result says how many pieces were taken
whole, and how many bytes of all of them. -/
def writePieces (device : Device) : List ByteArray → Nat × WriteResult
  | [] => (0, ⟨0, none⟩)
  | piece :: rest =>
      match device.write piece with
      | (_, ⟨count, some error⟩) => (0, ⟨count, some error⟩)
      | (device, ⟨count, none⟩) =>
          let (whole, result) := device.writePieces rest
          (whole + 1, { result with count := count + result.count })

end Device

end WordLisp
