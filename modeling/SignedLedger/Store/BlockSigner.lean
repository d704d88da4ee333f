import SignedLedger.Store.Error
import SignedLedger.Certificate.Builder

/-! Block certificates. A block certificate names its block and the one before it, carries the digest
of that block's certificate, and wraps the visible bytes of its transactions. -/

namespace SignedLedger

structure BlockSigner where
  suite : Suite
  id : EntityId
  privateKey : Bytes

structure BlockHeader where
  id : BlockId
  previous : BlockId
  previousDigest : Digest
  height : UInt64

namespace BlockSigner

def layout (s : BlockSigner) (now : UInt64) (h : BlockHeader) (pending : List Certificate) : FieldList :=
  [Tag.version.word16 certificateVersion,
   Tag.timestamp.word64 now,
   Tag.cryptoSuite.word16 s.suite.id,
   CertificateType.block.field,
   Tag.blockId.identifier h.id,
   Tag.previousBlockId.identifier h.previous,
   Tag.previousBlockHash.digest h.previousDigest,
   Tag.blockHeight.word64 h.height]
  ++ pending.map Tag.wrappedTransaction.certificate

/-- The size of the signed certificate, from the sizes of its values. -/
def expectedSize (s : BlockSigner) (pending : List Certificate) : Nat :=
  encodedSize 2 + encodedSize 8 + encodedSize 2 + encodedSize 2 + encodedSize 16 + encodedSize 16
    + encodedSize 32 + encodedSize 8
    + (pending.map fun c => encodedSize c.visible).sum
    + encodedSize 16 + encodedSize s.suite.signatureSize

/-- Builds and signs a block certificate and compares its size with the expected one. -/
def certificate (s : BlockSigner) (now : UInt64) (h : BlockHeader) (pending : List Certificate) :
    Except CertificateError Certificate := do
  let c ← (s.layout now h pending).sign s.suite s.id.bytes s.privateKey
  if c.raw.length ≠ s.expectedSize pending then
    throw (.sizeMismatch (s.expectedSize pending) c.raw.length)
  pure c

end BlockSigner

end SignedLedger
