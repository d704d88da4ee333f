import SignedLedger.Field

/-! Reading fields on a machine with words of 64 bits. A sum that does not fit a word and a slice
that leaves the buffer are faults of the machine; they are kept apart from the errors of the codec. -/

namespace SignedLedger.Field.Machine

inductive Fault where
  | overflow
  | outOfBounds
deriving DecidableEq

def add (a b : UInt64) : Except Fault UInt64 :=
  if a.toNat + b.toNat < 2 ^ 64 then .ok (a + b) else .error .overflow

def sub (a b : UInt64) : Except Fault UInt64 :=
  if b ≤ a then .ok (a - b) else .error .overflow

def slice (buffer : Bytes) (start stop : UInt64) : Except Fault Bytes :=
  if start ≤ stop ∧ stop.toNat ≤ buffer.length then
    .ok (buffer.extract start.toNat stop.toNat)
  else .error .outOfBounds

def word (b : Bytes) : UInt64 :=
  UInt64.ofNat (ofBigEndian b)

/-- Every step is a machine word or a checked slice. The difference that may be negative is cut off
at zero; all others are checked. -/
def decode (w : HeaderWidth) (buffer : Bytes) (offset stop : UInt64) :
    Except Fault (Except CodecError Field) := do
  let size := UInt64.ofNat buffer.length
  let stop := if stop ≤ size then stop else size
  let remaining := if offset ≤ stop then stop - offset else 0
  let headerSize := UInt64.ofNat w.size
  if remaining < headerSize then
    return .error (.truncatedHeader offset.toNat remaining.toNat headerSize.toNat)
  let start ← add offset headerSize
  let header ← slice buffer offset start
  let tag := Tag.ofBytes (header.take 2)
  let declared := word (header.drop 2)
  let available ← sub stop start
  if available < declared then
    return .error (.lengthOverflow offset.toNat declared.toNat available.toNat)
  let valueStop ← add start declared
  let value ← slice buffer start valueStop
  return .ok { tag, value, offset := offset.toNat, stop := valueStop.toNat }

/-- Where going through the fields of a buffer has come to. An error ends it for good. -/
structure Iteration where
  width : HeaderWidth
  buffer : Bytes
  offset : UInt64
  stop : UInt64
  failed : Bool

namespace Iteration

def start (w : HeaderWidth) (buffer : Bytes) (offset stop : UInt64) : Iteration :=
  let size := UInt64.ofNat buffer.length
  { width := w
    buffer
    offset
    stop := if stop ≤ size then stop else size
    failed := false }

def next (i : Iteration) : Except Fault (Option (Except CodecError Field) × Iteration) := do
  if i.failed || i.stop ≤ i.offset then return (none, i)
  match ← decode i.width i.buffer i.offset i.stop with
  | .ok f => return (some (.ok f), { i with offset := UInt64.ofNat f.stop })
  | .error e => return (some (.error e), { i with failed := true })

/-- What asking for the next item comes to, so many times in a row. -/
def calls : Nat → Iteration → Except Fault (List (Option (Except CodecError Field)))
  | 0, _ => return []
  | n + 1, i => do
    let (item, i) ← i.next
    let items ← calls n i
    return item :: items

end Iteration

end SignedLedger.Field.Machine
