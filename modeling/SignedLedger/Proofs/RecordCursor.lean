import SignedLedger.Proofs.FieldMachine
import SignedLedger.Proofs.RecordCodec

/-! Records that a cursor goes through, on a machine with words of 64 bits. A read that leaves the bytes
is a fault, as is a position that does not fit a word. There is no fault, whatever the bytes are, and
what is read is what the bytes decode to. -/

namespace SignedLedger

open Field.Machine (Fault add sub slice word add_eq sub_eq toNat_position slice_eq
  ofBigEndian_lt_word)

/-- A position in the bytes of a record, which a read moves on. -/
abbrev Cursor := StateT UInt64 (Except Fault)

namespace Cursor

def take (b : Bytes) (size : UInt64) : Cursor Bytes := fun position => do
  let stop ← add position size
  let out ← slice b position stop
  return (out, stop)

/-- The next 16 bytes. No other number of them goes into an identifier. -/
def identifier {kind : Identifier.Kind} (b : Bytes) : Cursor (Identifier kind) := do
  match Identifier.ofBytes? (← take b 16) with
  | some id => return id
  | none => throw .outOfBounds

def integer (b : Bytes) : Cursor UInt64 := do
  return word (← take b 8)

/-- The bytes that remain, if the recorded size is theirs. -/
def certificate (kind : RecordKind) (b : Bytes) (size : UInt64) :
    Cursor (Except StoreError Certificate) := fun position => do
  let stop := UInt64.ofNat b.length
  let remaining ← sub stop position
  if remaining = size then
    let raw ← slice b position stop
    return (.ok (.ofBytes raw), position)
  else
    return (.error (.corruptRecord kind (.sizeDisagrees size.toNat remaining.toNat)), position)

def block (b : Bytes) : Cursor (Except StoreError Block) := do
  let id ← identifier b
  let previous ← identifier b
  let next ← identifier b
  let height ← integer b
  let size ← integer b
  let certificate ← certificate .block b size
  return certificate.map fun certificate => { id, previous, next, height, certificate }

def transaction (b : Bytes) : Cursor (Except StoreError RecordedTransaction) := do
  let id ← identifier b
  let block ← identifier b
  let previous ← identifier b
  let next ← identifier b
  let size ← integer b
  let certificate ← certificate .transaction b size
  return certificate.map fun certificate => { id, block, previous, next, certificate }

def artifact (b : Bytes) : Cursor (Except StoreError Artifact) := do
  let id ← identifier b
  let firstBlock ← identifier b
  let first ← identifier b
  let lastBlock ← identifier b
  let last ← identifier b
  return .ok { id, firstBlock, first, lastBlock, last }

/-- Goes through a record that has at least the bytes of its header. -/
def readFrom {α : Type} (kind : RecordKind) (header : Nat) (x : Bytes → Cursor (Except StoreError α))
    (b : Bytes) : Except Fault (Except StoreError α) :=
  if b.length < header then .ok (.error (.corruptRecord kind (.tooShort b.length header)))
  else (x b).run' 0

end Cursor

def Block.read : Bytes → Except Fault (Except StoreError Block) :=
  Cursor.readFrom .block headerSize Cursor.block

def RecordedTransaction.read : Bytes → Except Fault (Except StoreError RecordedTransaction) :=
  Cursor.readFrom .transaction headerSize Cursor.transaction

def Artifact.read (b : Bytes) : Except Fault (Except StoreError Artifact) :=
  if b.length ≠ recordSize then .ok (.error (.corruptRecord .artifact (.wrongSize b.length recordSize)))
  else Cursor.readFrom .artifact recordSize Cursor.artifact b

namespace Cursor

variable {α β : Type} {x : Cursor α} {k : α → Cursor β} {a : α} {c : β} {b : Bytes}
variable {l m n : Nat}

/-- That a read at the position `m` gives `a` and moves on to `n`, without a fault. -/
def Reads (x : Cursor α) (m : Nat) (a : α) (n : Nat) : Prop :=
  x.run (.ofNat m) = .ok (a, .ofNat n)

theorem Reads.bind (hx : x.Reads l a m) (hk : (k a).Reads m c n) : (x >>= k).Reads l c n := by
  rw [Reads, StateT.run_bind, hx]
  exact hk

theorem reads_pure (a : α) (n : Nat) : (pure a : Cursor α).Reads n a n := rfl

theorem Reads.run' (h : x.Reads 0 a n) : x.run' 0 = .ok a := by
  have hrun : x.run 0 = .ok (a, .ofNat n) := h
  rw [StateT.run'_eq, hrun]
  rfl

/-- Eight bytes make a word. -/
theorem ofBigEndian_take_lt (b : Bytes) : ofBigEndian (b.take 8) < 2 ^ 64 :=
  ofBigEndian_lt_word (List.length_take_le 8 b)

section

variable (hb : b.length < 2 ^ 64)
include hb

theorem reads_take (size : UInt64) (h : m + size.toNat ≤ b.length) :
    (take b size).Reads m ((b.drop m).take size.toNat) (m + size.toNat) := by
  have hadd := add_eq (Nat.lt_of_le_of_lt h hb)
  rw [UInt64.ofNat_toNat] at hadd
  have hslice := slice_eq hb (Nat.le_add_right m size.toNat) h
  rw [Nat.add_sub_cancel_left] at hslice
  show (take b size) (.ofNat m) = _
  rw [take, hadd, ok_bind, hslice]
  rfl

theorem reads_identifier (kind : Identifier.Kind) (h : m + 16 ≤ b.length) :
    (identifier b : Cursor (Identifier kind)).Reads m (identifierAt b m h) (m + 16) := by
  have hread : Identifier.ofBytes? ((b.drop m).take 16) = some (identifierAt b m h : Identifier kind) :=
    Identifier.ofBytes?_bytes (identifierAt b m h)
  apply (reads_take hb 16 h).bind
  show (match Identifier.ofBytes? ((b.drop m).take 16) with
    | some id => (pure id : Cursor (Identifier kind))
    | none => throw Fault.outOfBounds).Reads (m + 16) _ (m + 16)
  rw [hread]
  exact reads_pure _ _

theorem reads_integer (h : m + 8 ≤ b.length) :
    (integer b).Reads m (.ofNat (ofBigEndian ((b.drop m).take 8))) (m + 8) := by
  apply (reads_take hb 8 h).bind
  exact reads_pure _ _

/-- What remains is compared with the recorded size, whatever this is, before it is taken. -/
theorem reads_certificate (kind : RecordKind) (h : m + 8 ≤ b.length) :
    (certificate kind b (.ofNat (ofBigEndian ((b.drop m).take 8)))).Reads (m + 8)
      (certificateAt kind b m) (m + 8) := by
  have hsub := sub_eq hb h (Nat.le_refl b.length)
  have hremaining : (UInt64.ofNat (b.length - (m + 8))).toNat = (b.drop (m + 8)).length := by
    rw [toNat_position hb (Nat.sub_le _ _), List.length_drop]
  have hrecorded : (UInt64.ofNat (ofBigEndian ((b.drop m).take 8))).toNat =
      ofBigEndian ((b.drop m).take 8) := UInt64.toNat_ofNat_of_lt' (ofBigEndian_take_lt _)
  have hiff : UInt64.ofNat (b.length - (m + 8)) = .ofNat (ofBigEndian ((b.drop m).take 8)) ↔
      (b.drop (m + 8)).length = ofBigEndian ((b.drop m).take 8) := by
    rw [← UInt64.toNat_inj, hremaining, hrecorded]
  have hraw : (b.drop (m + 8)).take (b.length - (m + 8)) = b.drop (m + 8) := by
    rw [← List.length_drop, List.take_length]
  show (certificate kind b _) (.ofNat (m + 8)) = _
  simp only [certificate, certificateAt, hsub, ok_bind, slice_eq hb h (Nat.le_refl _), hiff, hraw,
    hremaining, hrecorded]
  by_cases heq : (b.drop (m + 8)).length = ofBigEndian ((b.drop m).take 8)
  · rw [if_pos heq, if_pos heq]
    rfl
  · rw [if_neg heq, if_neg heq]
    rfl

theorem reads_block (h : Block.headerSize ≤ b.length) :
    (block b).Reads 0 (Block.decode b) Block.headerSize := by
  have hlength : 64 ≤ b.length := h
  have hid := reads_identifier hb .block (m := 0) (by omega)
  have hprevious := reads_identifier hb .block (m := 16) (by omega)
  have hnext := reads_identifier hb .block (m := 32) (by omega)
  have hheight := reads_integer hb (m := 48) (by omega)
  have hsize := reads_integer hb (m := 56) (by omega)
  have hcertificate := reads_certificate hb .block (m := 56) (by omega)
  rw [Block.decode, dif_neg (Nat.not_lt.mpr h)]
  exact hid.bind (hprevious.bind (hnext.bind (hheight.bind (hsize.bind (hcertificate.bind
    (reads_pure _ _))))))

theorem reads_transaction (h : RecordedTransaction.headerSize ≤ b.length) :
    (transaction b).Reads 0 (RecordedTransaction.decode b) RecordedTransaction.headerSize := by
  have hlength : 72 ≤ b.length := h
  have hid := reads_identifier hb .transaction (m := 0) (by omega)
  have hblock := reads_identifier hb .block (m := 16) (by omega)
  have hprevious := reads_identifier hb .transaction (m := 32) (by omega)
  have hnext := reads_identifier hb .transaction (m := 48) (by omega)
  have hsize := reads_integer hb (m := 64) (by omega)
  have hcertificate := reads_certificate hb .transaction (m := 64) (by omega)
  rw [RecordedTransaction.decode, dif_neg (Nat.not_lt.mpr h)]
  exact hid.bind (hblock.bind (hprevious.bind (hnext.bind (hsize.bind (hcertificate.bind
    (reads_pure _ _))))))

theorem reads_artifact (h : b.length = Artifact.recordSize) :
    (artifact b).Reads 0 (Artifact.decode b) Artifact.recordSize := by
  have hlength : b.length = 80 := h
  have hid := reads_identifier hb .artifact (m := 0) (by omega)
  have hfirstBlock := reads_identifier hb .block (m := 16) (by omega)
  have hfirst := reads_identifier hb .transaction (m := 32) (by omega)
  have hlastBlock := reads_identifier hb .block (m := 48) (by omega)
  have hlast := reads_identifier hb .transaction (m := 64) (by omega)
  rw [Artifact.decode, dif_pos h]
  exact hid.bind (hfirstBlock.bind (hfirst.bind (hlastBlock.bind (hlast.bind (reads_pure _ _)))))

end

theorem readFrom_eq {kind : RecordKind} {header : Nat} {x : Bytes → Cursor (Except StoreError α)}
    {decoded : Except StoreError α}
    (short : b.length < header → decoded = .error (.corruptRecord kind (.tooShort b.length header)))
    (reads : header ≤ b.length → (x b).Reads 0 decoded n) :
    readFrom kind header x b = .ok decoded := by
  by_cases h : b.length < header
  · rw [readFrom, if_pos h, short h]
  · rw [readFrom, if_neg h, (reads (Nat.not_lt.mp h)).run']

end Cursor

variable {b : Bytes}

theorem Block.read_eq (hb : b.length < 2 ^ 64) : read b = .ok (decode b) := by
  apply Cursor.readFrom_eq _ (Cursor.reads_block hb)
  intro h
  rw [decode, dif_pos h]

theorem RecordedTransaction.read_eq (hb : b.length < 2 ^ 64) : read b = .ok (decode b) := by
  apply Cursor.readFrom_eq _ (Cursor.reads_transaction hb)
  intro h
  rw [decode, dif_pos h]

theorem Artifact.read_eq (hb : b.length < 2 ^ 64) : read b = .ok (decode b) := by
  by_cases h : b.length = recordSize
  · rw [read, if_neg (fun hne => hne h)]
    apply Cursor.readFrom_eq _ (fun _ => Cursor.reads_artifact hb h)
    intro hlt
    exact absurd h (Nat.ne_of_lt hlt)
  · rw [read, if_pos h, decode, dif_neg h]

end SignedLedger
