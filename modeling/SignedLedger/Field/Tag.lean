import SignedLedger.Bytes

/-! Field tags. The tags below 1024 belong to certificates, blocks and transactions and a few of
them have names; all others are left to applications. -/

namespace SignedLedger

structure Tag where
  number : UInt16
deriving DecidableEq

namespace Tag

def version : Tag := ⟨0x0001⟩
def timestamp : Tag := ⟨0x0002⟩
def cryptoSuite : Tag := ⟨0x0003⟩
def certificateType : Tag := ⟨0x0004⟩
def signerId : Tag := ⟨0x0005⟩
def signature : Tag := ⟨0x0006⟩
def authorId : Tag := ⟨0x0007⟩
def chainCertificate : Tag := ⟨0x0008⟩

def blockId : Tag := ⟨0x0010⟩
def previousBlockId : Tag := ⟨0x0011⟩
def previousBlockHash : Tag := ⟨0x0012⟩
def blockHeight : Tag := ⟨0x0013⟩
def wrappedTransaction : Tag := ⟨0x0014⟩

def transactionId : Tag := ⟨0x0020⟩
def previousTransactionId : Tag := ⟨0x0021⟩
def artifactId : Tag := ⟨0x0022⟩

def names : List (Tag × String) :=
  [(version, "VERSION"), (timestamp, "TIMESTAMP"), (cryptoSuite, "CRYPTO_SUITE"),
   (certificateType, "CERTIFICATE_TYPE"), (signerId, "SIGNER_ID"), (signature, "SIGNATURE"),
   (authorId, "AUTHOR_ID"), (chainCertificate, "CHAIN_CERTIFICATE"), (blockId, "BLOCK_ID"),
   (previousBlockId, "PREVIOUS_BLOCK_ID"), (previousBlockHash, "PREVIOUS_BLOCK_HASH"),
   (blockHeight, "BLOCK_HEIGHT"), (wrappedTransaction, "WRAPPED_TRANSACTION"),
   (transactionId, "TRANSACTION_ID"), (previousTransactionId, "PREVIOUS_TRANSACTION_ID"),
   (artifactId, "ARTIFACT_ID")]

def name? (t : Tag) : Option String :=
  names.lookup t

def isApplication (t : Tag) : Bool :=
  0x0400 ≤ t.number

def bytes (t : Tag) : Bytes :=
  bigEndian 2 t.number.toNat

def ofBytes (b : Bytes) : Tag :=
  ⟨UInt16.ofNat (ofBigEndian b)⟩

@[simp] theorem length_bytes (t : Tag) : t.bytes.length = 2 :=
  length_bigEndian 2 _

@[simp] theorem ofBytes_bytes (t : Tag) : ofBytes t.bytes = t := by
  have h : t.number.toNat < 256 ^ 2 := t.number.toNat_lt
  simp [ofBytes, bytes, ofBigEndian_bigEndian h]

end Tag

def hexWord (n : UInt16) : String :=
  "0x" ++ hex (bigEndian 2 n.toNat)

/-- The name, or the number of a tag that has none. -/
def Tag.text (t : Tag) : String :=
  t.name?.getD (hexWord t.number)

def Tag.debugText (t : Tag) : String :=
  match t.name? with
  | some name => s!"FieldType::{name}"
  | none => s!"FieldType({hexWord t.number})"

end SignedLedger
