import SignedLedger.Store.Index
import SignedLedger.Store.BlockSigner
import SignedLedger.Transaction

/-! Appending blocks. The transactions of a block are recorded one after the other, so that a later one
may extend an earlier one of the same block. The block is linked only after all of them have been
recorded. An error leaves no tables to commit. -/

namespace SignedLedger.Tables

/-- The artifact after transaction `x` of block `block`. The declared previous transaction has to be the
last one of the artifact. -/
def extendArtifact (t : Tables) (block : BlockId) (x : Transaction) : Except StoreError Artifact := do
  match ← t.artifact? x.artifact with
  | some a =>
    if a.last ≠ x.previous then throw (.artifactConflict a.id a.last x.previous)
    pure { a with lastBlock := block, last := x.id }
  | none =>
    if x.previous ≠ .nil then throw (.artifactConflict x.artifact .nil x.previous)
    pure (.start x.artifact block x.id)

/-- The record of the declared previous transaction, unless there is none. -/
def previousOf (t : Tables) (x : Transaction) : Except StoreError (Option RecordedTransaction) :=
  if x.previous = .nil then .ok none
  else do
    match ← t.transaction? x.previous with
    | some r => pure (some r)
    | none => throw (.missingPrevious x.id x.previous)

/-- Records a transaction of block `block`: the transaction, its artifact, and the link from the
transaction that it extends. -/
def record (block : BlockId) (t : Tables) (x : Transaction) : Except StoreError Tables := do
  if (t.get? .transactions x.id.bytes).isSome then throw (.duplicateTransaction x.id)
  let previous ← t.previousOf x
  let artifact ← t.extendArtifact block x
  let t := t.putTransaction
    { id := x.id, block, previous := x.previous, next := .nil, certificate := x.certificate }
  let t := t.putArtifact artifact
  match previous with
  | some r => pure (t.putTransaction { r with next := x.id })
  | none => pure t

def recordCertificate (block : BlockId) (t : Tables) (c : Certificate) : Except StoreError Tables := do
  let x ← (Transaction.parse c).mapError .invalidTransaction
  t.record block x

def recordAll (block : BlockId) (t : Tables) (pending : List Certificate) : Except StoreError Tables :=
  pending.foldlM (recordCertificate block) t

def createRoot (s : BlockSigner) (now : UInt64) (t : Tables) : Except StoreError (Block × Tables) := do
  let header : BlockHeader := { id := .root, previous := .nil, previousDigest := .zero 32, height := 0 }
  let certificate ← (s.certificate now header []).mapError .certificate
  let root : Block := { id := .root, previous := .nil, next := .nil, height := 0, certificate }
  pure (root, ((t.putBlock root).putHeight 0 root.id).putHead root)

/-- The root block, which is created where the tables hold none. -/
def ensureRoot (s : BlockSigner) (now : UInt64) (t : Tables) : Except StoreError (Block × Tables) := do
  match ← t.block? .root with
  | some root => pure (root, t)
  | none => createRoot s now t

def headOrRoot (s : BlockSigner) (now : UInt64) (t : Tables) : Except StoreError (Block × Tables) := do
  match ← t.head? with
  | some head => pure (head, t)
  | none => createRoot s now t

/-- Links a block after `previous` and makes it the head. -/
def link (previous block : Block) (t : Tables) : Tables :=
  (((t.putBlock block).putBlock { previous with next := block.id }).putHead block).putHeight block.height block.id

/-- Appends a block with the identifier `fresh` that wraps the pending transactions. The certificate is
built and signed before any of them is recorded. -/
def append (s : BlockSigner) (fresh : BlockId) (now : UInt64) (pending : List Certificate) (t : Tables) :
    Except StoreError (Block × Tables) := do
  let (previous, t) ← headOrRoot s now t
  let header : BlockHeader :=
    { id := fresh
      previous := previous.id
      previousDigest := previous.certificate.digest s.suite
      height := previous.height + 1 }
  let certificate ← (s.certificate now header pending).mapError .certificate
  let t ← t.recordAll fresh pending
  let block : Block := { id := fresh, previous := previous.id, next := .nil, height := header.height, certificate }
  pure (block, link previous block t)

end SignedLedger.Tables
