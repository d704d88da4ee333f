import SignedLedger.Field
import SignedLedger.Suite
import SignedLedger.Identifier

/-! Errors in the structure of certificates and in building them, and the values of fields that have
a fixed size. -/

namespace SignedLedger

inductive CertificateError where
  | codec (cause : CodecError)
  | crypto (cause : CryptoError)
  | emptyCertificate
  | invalidSignerId (size : Nat)
  | sizeMismatch (expected actual : Nat)
  | missingField (tag : Tag)
  | invalidFieldLength (tag : Tag) (expected actual : Nat)
deriving DecidableEq

def CertificateError.message : CertificateError → String
  | codec cause => s!"codec error: {cause.message}"
  | crypto cause => s!"crypto error: {cause.message}"
  | emptyCertificate => "cannot emit empty certificate"
  | invalidSignerId size => s!"signer id must be 16 bytes, got {size}"
  | sizeMismatch expected actual =>
    s!"emitted certificate is {actual} bytes, precomputed size was {expected}"
  | missingField tag => s!"missing field {tag.text}"
  | invalidFieldLength tag expected actual =>
    s!"field {tag.text} must be {expected} bytes, got {actual}"

def liftCodec {α : Type} (r : Except CodecError α) : Except CertificateError α :=
  r.mapError .codec

def fixedValue (n : Nat) (t : Tag) (value : Bytes) : Except CertificateError (FixedBytes n) :=
  match FixedBytes.ofList? n value with
  | some b => .ok b
  | none => .error (.invalidFieldLength t n value.length)

namespace Field

def fixed (n : Nat) (f : Field) : Except CertificateError (FixedBytes n) :=
  fixedValue n f.tag f.value

def word16 (f : Field) : Except CertificateError UInt16 :=
  (f.fixed 2).map fun b => UInt16.ofNat (ofBigEndian b.toList)

def word64 (f : Field) : Except CertificateError UInt64 :=
  (f.fixed 8).map fun b => UInt64.ofNat (ofBigEndian b.toList)

end Field

def Identifier.ofField {kind : Identifier.Kind} (t : Tag) (value : Bytes) :
    Except CertificateError (Identifier kind) :=
  (fixedValue 16 t value).map Identifier.mk

end SignedLedger
