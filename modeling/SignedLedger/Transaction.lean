import SignedLedger.Trust.Error
import SignedLedger.Certificate.Builder

/-! Transactions: certificates that move an artifact forward. Reading one checks its structure only.
A draft holds what a transaction will say until it is signed. -/

namespace SignedLedger

structure Transaction where
  certificate : Certificate
  type : CertificateType
  id : TransactionId
  artifact : ArtifactId
  /-- The zero identifier where the transaction starts its artifact. -/
  previous : TransactionId
deriving DecidableEq

namespace Transaction

/-- Reads the type, the identifier, the artifact and the previous transaction, in this order. -/
def parse (c : Certificate) : Except AttestationError Transaction := do
  let type ←
    match ← structural c.certificateType with
    | some type => pure type
    | none => throw .missingTransactionType
  let field ← structural (c.require .transactionId)
  let id ← structural (Identifier.ofField .transactionId field.value)
  let artifact ←
    match ← structural (c.identifier .artifactId) with
    | some artifact => pure artifact
    | none => throw .missingArtifactId
  let previous ← structural (c.identifier .previousTransactionId)
  pure { certificate := c, type, id, artifact, previous := previous.getD .nil }

def isGenesis (t : Transaction) : Bool :=
  t.previous.isNil

end Transaction

structure TransactionDraft where
  type : CertificateType
  id : TransactionId
  artifact : ArtifactId
  previous : TransactionId := .nil
  /-- Milliseconds since 1970, or the time of signing. -/
  timestamp : Option UInt64 := none
  author : Option EntityId := none
  chain : Option Certificate := none
  fields : FieldList := []

namespace TransactionDraft

def layout (d : TransactionDraft) (suite : Suite) (now : UInt64) : FieldList :=
  [Tag.version.word16 certificateVersion,
   Tag.timestamp.word64 (d.timestamp.getD now),
   Tag.cryptoSuite.word16 suite.id,
   d.type.field,
   Tag.transactionId.identifier d.id,
   Tag.artifactId.identifier d.artifact]
  ++ (d.previous.nonNil?.map Tag.previousTransactionId.identifier).toList
  ++ (d.author.map Tag.authorId.identifier).toList
  ++ (d.chain.map Tag.chainCertificate.certificate).toList
  ++ d.fields

def sign (d : TransactionDraft) (suite : Suite) (now : UInt64) (signer : EntityId) (privateKey : Bytes) :
    Except CertificateError Certificate :=
  (d.layout suite now).sign suite signer.bytes privateKey

end TransactionDraft

end SignedLedger
