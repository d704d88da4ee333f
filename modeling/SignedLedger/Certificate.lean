import SignedLedger.Certificate.Error
import SignedLedger.Field.Scan

/-! Certificates: immutable sequences of fields, of which only the first `visible` bytes can be looked
up. All bytes of a new certificate are visible. Attestation narrows it to the end of its signature, so
that what trails the signature is never taken for signed content. -/

namespace SignedLedger

structure CertificateType where
  number : UInt16
deriving DecidableEq

namespace CertificateType

def block : CertificateType := ⟨0x0001⟩

def isTransaction (t : CertificateType) : Bool :=
  0x0100 ≤ t.number

def debugText (t : CertificateType) : String :=
  s!"CertificateType({hexWord t.number})"

end CertificateType

def certificateVersion : UInt16 := 1

structure Certificate where
  raw : Bytes
  visible : Nat
  visible_le : visible ≤ raw.length
deriving DecidableEq

structure SignedRegion where
  message : Bytes
  signature : Field
deriving DecidableEq

namespace Certificate

def ofBytes (b : Bytes) : Certificate :=
  ⟨b, b.length, Nat.le_refl _⟩

def visibleBytes (c : Certificate) : Bytes :=
  c.raw.take c.visible

/-- Narrows the visible part. It never grows. -/
def narrow (c : Certificate) (size : Nat) : Certificate :=
  ⟨c.raw, min c.visible size, Nat.le_trans (Nat.min_le_left ..) c.visible_le⟩

def fields (c : Certificate) : List (Except CodecError Field) :=
  Field.scan .short c.raw 0 c.visible

/-- The bytes as a certificate, if they are fields up to the last byte. -/
def parse (b : Bytes) : Except CodecError Certificate :=
  let c := ofBytes b
  match Field.scanError? c.fields with
  | some e => .error e
  | none => .ok c

def field (c : Certificate) (t : Tag) : Except CodecError (Option Field) :=
  Field.findFirst c.raw c.visible t

def fieldsOf (c : Certificate) (t : Tag) : Except CodecError (List Field) :=
  Field.findAll c.raw c.visible t

def require (c : Certificate) (t : Tag) : Except CertificateError Field := do
  match ← liftCodec (c.field t) with
  | some f => pure f
  | none => throw (.missingField t)

def certificateType (c : Certificate) : Except CertificateError (Option CertificateType) := do
  match ← liftCodec (c.field .certificateType) with
  | some f => pure (some ⟨← f.word16⟩)
  | none => pure none

def identifier {kind : Identifier.Kind} (c : Certificate) (t : Tag) :
    Except CertificateError (Option (Identifier kind)) := do
  match ← liftCodec (c.field t) with
  | some f => pure (some (← Identifier.ofField t f.value))
  | none => pure none

def signer (c : Certificate) : Except CertificateError (Option EntityId) :=
  c.identifier .signerId

def signedRegion (c : Certificate) : Except CodecError (Option SignedRegion) :=
  (c.field .signature).map fun found => found.map fun f => ⟨c.raw.take f.offset, f⟩

def digest (c : Certificate) (s : Suite) : Digest :=
  s.digest c.visibleBytes

def debugText (c : Certificate) : String :=
  s!"Certificate \x7b raw_size: {c.raw.length}, visible_size: {c.visible} \x7d"

@[simp] theorem visibleBytes_ofBytes (b : Bytes) : (ofBytes b).visibleBytes = b := by
  simp [ofBytes, visibleBytes]

@[simp] theorem length_visibleBytes (c : Certificate) : c.visibleBytes.length = c.visible := by
  simp [visibleBytes, Nat.min_eq_left c.visible_le]

end Certificate

def Field.nested (f : Field) : Certificate :=
  .ofBytes f.value

end SignedLedger
