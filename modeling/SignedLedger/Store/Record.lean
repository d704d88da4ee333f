import SignedLedger.Store.Error
import SignedLedger.Trust.Resolver
import SignedLedger.Certificate.Builder

/-! The records of a store and their bytes. Identifiers are written as they are, integers in eight
bytes, and a certificate follows its size up to the end of the record. Only the visible bytes of a
certificate are written. -/

namespace SignedLedger

/-- A block. `next` is zero until a block follows. -/
structure Block where
  id : BlockId
  previous : BlockId
  next : BlockId
  height : UInt64
  certificate : Certificate
deriving DecidableEq

/-- A transaction in a block. `next` is zero until a transaction extends this one. -/
structure RecordedTransaction where
  id : TransactionId
  block : BlockId
  previous : TransactionId
  next : TransactionId
  certificate : Certificate
deriving DecidableEq

/-- The first and the last transaction of an artifact, and the blocks that hold them. -/
structure Artifact where
  id : ArtifactId
  firstBlock : BlockId
  first : TransactionId
  lastBlock : BlockId
  last : TransactionId
deriving DecidableEq

def identifierAt {kind : Identifier.Kind} (b : Bytes) (k : Nat) (h : k + 16 ≤ b.length) : Identifier kind :=
  ⟨⟨(b.drop k).take 16, by simp only [List.length_take, List.length_drop]; omega⟩⟩

/-- The size of a certificate in eight bytes, and its visible bytes. -/
def sizedCertificate (c : Certificate) : Bytes :=
  bigEndian 8 c.visible ++ c.visibleBytes

/-- The certificate after a recorded size. The size has to be that of the bytes that follow. -/
def certificateAt (kind : RecordKind) (b : Bytes) (k : Nat) : Except StoreError Certificate :=
  let recorded := ofBigEndian ((b.drop k).take 8)
  let raw := b.drop (k + 8)
  if raw.length = recorded then .ok (.ofBytes raw)
  else .error (.corruptRecord kind (.sizeDisagrees recorded raw.length))

namespace Block

def headerSize : Nat := 64

def encode (b : Block) : Bytes :=
  b.id.bytes ++ b.previous.bytes ++ b.next.bytes ++ bigEndian 8 b.height.toNat ++ sizedCertificate b.certificate

def decode (b : Bytes) : Except StoreError Block :=
  if h : b.length < headerSize then .error (.corruptRecord .block (.tooShort b.length headerSize))
  else do
    have h : headerSize ≤ b.length := Nat.le_of_not_lt h
    let certificate ← certificateAt .block b 56
    pure { id := identifierAt b 0 (Nat.le_trans (by decide) h)
           previous := identifierAt b 16 (Nat.le_trans (by decide) h)
           next := identifierAt b 32 (Nat.le_trans (by decide) h)
           height := UInt64.ofNat (ofBigEndian ((b.drop 48).take 8))
           certificate }

def size (b : Block) : Nat :=
  b.certificate.visible

def isRoot (b : Block) : Bool :=
  b.id == .root

end Block

namespace RecordedTransaction

def headerSize : Nat := 72

def encode (t : RecordedTransaction) : Bytes :=
  t.id.bytes ++ t.block.bytes ++ t.previous.bytes ++ t.next.bytes ++ sizedCertificate t.certificate

def decode (b : Bytes) : Except StoreError RecordedTransaction :=
  if h : b.length < headerSize then .error (.corruptRecord .transaction (.tooShort b.length headerSize))
  else do
    have h : headerSize ≤ b.length := Nat.le_of_not_lt h
    let certificate ← certificateAt .transaction b 64
    pure { id := identifierAt b 0 (Nat.le_trans (by decide) h)
           block := identifierAt b 16 (Nat.le_trans (by decide) h)
           previous := identifierAt b 32 (Nat.le_trans (by decide) h)
           next := identifierAt b 48 (Nat.le_trans (by decide) h)
           certificate }

def size (t : RecordedTransaction) : Nat :=
  t.certificate.visible

end RecordedTransaction

namespace Artifact

def recordSize : Nat := 80

def start (id : ArtifactId) (block : BlockId) (transaction : TransactionId) : Artifact :=
  { id, firstBlock := block, first := transaction, lastBlock := block, last := transaction }

def encode (a : Artifact) : Bytes :=
  a.id.bytes ++ a.firstBlock.bytes ++ a.first.bytes ++ a.lastBlock.bytes ++ a.last.bytes

def decode (b : Bytes) : Except StoreError Artifact :=
  if h : b.length = recordSize then
    have h : recordSize ≤ b.length := Nat.le_of_eq h.symm
    .ok { id := identifierAt b 0 (Nat.le_trans (by decide) h)
          firstBlock := identifierAt b 16 (Nat.le_trans (by decide) h)
          first := identifierAt b 32 (Nat.le_trans (by decide) h)
          lastBlock := identifierAt b 48 (Nat.le_trans (by decide) h)
          last := identifierAt b 64 (Nat.le_trans (by decide) h) }
  else .error (.corruptRecord .artifact (.wrongSize b.length recordSize))

end Artifact

/-- The key of a height. The order of the keys is the order of the heights. -/
def heightKey (height : UInt64) : Bytes :=
  bigEndian 8 height.toNat

/-- The only key of the head table. -/
def headKey : Bytes :=
  "ledger-head".toList.map fun c => UInt8.ofNat c.toNat

def decodeBlockId (b : Bytes) : Except StoreError BlockId :=
  match Identifier.ofBytes? b with
  | some id => .ok id
  | none => .error (.corruptRecord .height (.wrongIdSize b.length))

end SignedLedger
