import SignedLedger.Store.Record
import SignedLedger.Store.Table

/-! Reading the tables as records. A record that does not decode is an error of the store. -/

namespace SignedLedger.Tables

def load? {α : Type} (decode : Bytes → Except StoreError α) (t : Tables) (table : Table) (key : Bytes) :
    Except StoreError (Option α) :=
  match t.get? table key with
  | none => .ok none
  | some b => (decode b).map some

def block? (t : Tables) (id : BlockId) : Except StoreError (Option Block) :=
  t.load? Block.decode .blocks id.bytes

def head? (t : Tables) : Except StoreError (Option Block) :=
  t.load? Block.decode .head headKey

def blockIdAt? (t : Tables) (height : UInt64) : Except StoreError (Option BlockId) :=
  t.load? decodeBlockId .heights (heightKey height)

def blockAt? (t : Tables) (height : UInt64) : Except StoreError (Option Block) := do
  match ← t.blockIdAt? height with
  | some id => t.block? id
  | none => pure none

/-- The block after a block, if there is one. The block itself has to exist. -/
def nextBlock? (t : Tables) (id : BlockId) : Except StoreError (Option BlockId) := do
  match ← t.block? id with
  | some b => pure b.next.nonNil?
  | none => throw (.blockNotFound id)

def transaction? (t : Tables) (id : TransactionId) : Except StoreError (Option RecordedTransaction) :=
  t.load? RecordedTransaction.decode .transactions id.bytes

def transactionBlock? (t : Tables) (id : TransactionId) : Except StoreError (Option BlockId) := do
  return (← t.transaction? id).map RecordedTransaction.block

/-- The transaction that extends a transaction, if there is one. The transaction itself has to exist. -/
def nextTransaction? (t : Tables) (id : TransactionId) : Except StoreError (Option TransactionId) := do
  match ← t.transaction? id with
  | some r => pure r.next.nonNil?
  | none => throw (.transactionNotFound id)

def artifact? (t : Tables) (id : ArtifactId) : Except StoreError (Option Artifact) :=
  t.load? Artifact.decode .artifacts id.bytes

def firstTransaction? (t : Tables) (id : ArtifactId) : Except StoreError (Option TransactionId) := do
  return (← t.artifact? id).map Artifact.first

/-- The latest transaction of an artifact, for attestation. -/
def artifactState (t : Tables) : ArtifactResolver := fun id =>
  match t.artifact? id with
  | .ok a => .ok (a.map Artifact.last)
  | .error e => .error (.backend e.message)

def putBlock (t : Tables) (b : Block) : Tables :=
  t.put .blocks b.id.bytes b.encode

def putHead (t : Tables) (b : Block) : Tables :=
  t.put .head headKey b.encode

def putHeight (t : Tables) (height : UInt64) (id : BlockId) : Tables :=
  t.put .heights (heightKey height) id.bytes

def putTransaction (t : Tables) (r : RecordedTransaction) : Tables :=
  t.put .transactions r.id.bytes r.encode

def putArtifact (t : Tables) (a : Artifact) : Tables :=
  t.put .artifacts a.id.bytes a.encode

end SignedLedger.Tables
