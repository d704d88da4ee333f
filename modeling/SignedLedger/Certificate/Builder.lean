import SignedLedger.Certificate

/-! Building certificates. The fields are kept in order and are written only when the certificate is
finished. A signed certificate ends with the signer and the signature, which covers every byte before
its own field. -/

namespace SignedLedger

abbrev FieldList := List (Tag × Bytes)

namespace Tag

def word16 (t : Tag) (n : UInt16) : Tag × Bytes :=
  (t, bigEndian 2 n.toNat)

def word64 (t : Tag) (n : UInt64) : Tag × Bytes :=
  (t, bigEndian 8 n.toNat)

def identifier {kind : Identifier.Kind} (t : Tag) (i : Identifier kind) : Tag × Bytes :=
  (t, i.bytes)

def digest (t : Tag) (d : Digest) : Tag × Bytes :=
  (t, d.toList)

def certificate (t : Tag) (c : Certificate) : Tag × Bytes :=
  (t, c.visibleBytes)

end Tag

def CertificateType.field (t : CertificateType) : Tag × Bytes :=
  Tag.certificateType.word16 t.number

namespace FieldList

def encodedSize (fields : FieldList) : Nat :=
  (fields.map fun f => SignedLedger.encodedSize f.2.length).sum

/-- Writes the fields and compares the size with the one computed from the values. -/
def serialize (fields : FieldList) : Except CertificateError Bytes := do
  let bytes ← liftCodec (Field.encodeAll fields)
  if bytes.length ≠ encodedSize fields then
    throw (.sizeMismatch (encodedSize fields) bytes.length)
  pure bytes

def emit (fields : FieldList) : Except CertificateError Certificate := do
  if fields = [] then throw .emptyCertificate
  pure (.ofBytes (← serialize fields))

def sign (fields : FieldList) (suite : Suite) (signer privateKey : Bytes) :
    Except CertificateError Certificate := do
  if signer.length ≠ 16 then throw (.invalidSignerId signer.length)
  if fields = [] then throw .emptyCertificate
  let all := fields ++ [(Tag.signerId, signer)]
  let message ← serialize all
  let signature ← (suite.sign privateKey message).mapError .crypto
  let last ← liftCodec (Field.encode .short .signature signature)
  let expected := encodedSize all + SignedLedger.encodedSize suite.signatureSize
  let bytes := message ++ last
  if bytes.length ≠ expected then throw (.sizeMismatch expected bytes.length)
  pure (.ofBytes bytes)

end FieldList

end SignedLedger
