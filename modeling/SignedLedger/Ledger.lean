import SignedLedger.Store
import SignedLedger.Trust.Attestation

/-! Ledgers: a store and a queue of submissions that wait for the next block. A submission is attested
against the state that the store will have once the queue is committed, so that no two of them extend
the same transaction. Discarding empties the queue; the latest discarded submissions are remembered. -/

namespace SignedLedger

structure LedgerConfig where
  validateOnSubmit : Bool := true
  /-- Whether validation on submission runs contracts as well. -/
  validateContracts : Bool := false
  maxPending : Nat := 1024
  /-- How many discarded submissions are remembered. -/
  maxDiscarded : Nat := 1024
deriving DecidableEq

inductive SubmissionStatus where
  | pending
  | succeeded (block : BlockId)
  | discarded
deriving DecidableEq

inductive LedgerError where
  | store (cause : StoreError)
  | attestation (cause : AttestationError)
  | duplicatePending (id : TransactionId)
  | alreadyRecorded (id : TransactionId)
  | queueFull (size : Nat)
deriving DecidableEq

def LedgerError.message : LedgerError → String
  | store cause => s!"storage error: {cause.message}"
  | attestation cause => s!"attestation failed: {cause.message}"
  | duplicatePending id => s!"transaction {id.text} is already pending"
  | alreadyRecorded id => s!"transaction {id.text} is already recorded"
  | queueFull size => s!"pending queue is full ({size} transactions)"

structure Ledger where
  config : LedgerConfig
  store : Store
  queue : List Transaction := []
  /-- The last queued transaction of every artifact that has one. -/
  latest : FiniteMap ArtifactId TransactionId := .empty
  /-- Pending and remembered discarded submissions. -/
  statuses : FiniteMap TransactionId SubmissionStatus := .empty
  /-- Remembered discarded submissions, oldest first. -/
  discarded : List TransactionId := []

namespace Ledger

def start (config : LedgerConfig) (store : Store) : Ledger :=
  { config, store }

/-- The state of artifacts once everything pending is committed. -/
def pendingState (l : Ledger) : ArtifactResolver := fun artifact =>
  match l.latest.get? artifact with
  | some latest => .ok (some latest)
  | none => l.store.tables.artifactState artifact

def headHeight (l : Ledger) : Except StoreError UInt64 := do
  match ← l.store.tables.head? with
  | some head => pure head.height
  | none => pure 0

/-- Attests at the height of the head. The certificate comes back narrowed. -/
def attestWith (l : Ledger) (r : Resolvers) (validateContract : Bool) (c : Certificate) :
    Except LedgerError (Certificate × Attestation) := do
  let height ← l.headHeight.mapError .store
  let a ← (c.attestation l.store.suite r { height, validateContract }).mapError .attestation
  pure (c.narrow a.visible, a)

def attest (l : Ledger) (entities : EntityResolver) (contracts : ContractResolver) (validateContract : Bool)
    (c : Certificate) : Except LedgerError (Certificate × Attestation) :=
  l.attestWith { entities, artifacts := l.store.tables.artifactState, contracts } validateContract c

/-- The transaction to queue for a certificate, under the identifier read before it was narrowed. -/
def accept (l : Ledger) (entities : EntityResolver) (contracts : ContractResolver) (c : Certificate) :
    Except LedgerError (TransactionId × Transaction) := do
  if l.config.maxPending ≤ l.queue.length then throw (.queueFull l.queue.length)
  let parsed ← (Transaction.parse c).mapError .attestation
  if l.statuses.get? parsed.id = some .pending then throw (.duplicatePending parsed.id)
  if (← (l.store.tables.transaction? parsed.id).mapError .store).isSome then throw (.alreadyRecorded parsed.id)
  if l.config.validateOnSubmit then
    let r : Resolvers := { entities, artifacts := l.pendingState, contracts }
    let (narrowed, _) ← l.attestWith r l.config.validateContracts c
    let transaction ← (Transaction.parse narrowed).mapError .attestation
    pure (parsed.id, transaction)
  else pure (parsed.id, parsed)

def enqueue (l : Ledger) (id : TransactionId) (x : Transaction) : Ledger :=
  { l with
    latest := l.latest.insert x.artifact id
    discarded := l.discarded.filter fun d => d ≠ id
    statuses := l.statuses.insert id .pending
    queue := l.queue ++ [x] }

def submit (l : Ledger) (entities : EntityResolver) (contracts : ContractResolver) (c : Certificate) :
    Except LedgerError TransactionId × Ledger :=
  match l.accept entities contracts c with
  | .ok (id, x) => (.ok id, l.enqueue id x)
  | .error e => (.error e, l)

/-- Forgets what is known of a queued transaction once it is recorded. A later queued transaction of
the same artifact stays the latest. -/
def settle (l : Ledger) (x : Transaction) : Ledger :=
  { l with
    statuses := l.statuses.erase x.id
    latest := if l.latest.get? x.artifact = some x.id then l.latest.erase x.artifact else l.latest }

/-- Commits the whole queue in one block. A failure leaves the queue as it was. -/
def append (l : Ledger) (fresh : BlockId) (now : UInt64) : Except LedgerError Block × Ledger :=
  match l.store.append fresh now (l.queue.map Transaction.certificate) with
  | (.ok block, store) => (.ok block, { l.queue.foldl settle { l with store } with queue := [] })
  | (.error e, store) => (.error (.store e), { l with store })

/-- Appends for a signer that signs every message, with a signature of the declared size. A signature
that no field holds is not made: the certificate of a missing root fails on it whatever its bytes are. -/
def appendSigning (l : Ledger) (fresh : BlockId) (now : UInt64) : Except LedgerError Block × Ledger :=
  let size := l.store.signer.suite.signatureSize
  match l.store.tables.head? with
  | .ok none =>
    if HeaderWidth.short.maxValue < size then
      (.error (.store (.certificate (.codec (.valueTooLarge size)))), l)
    else l.append fresh now
  | _ => l.append fresh now

def evict (limit : Nat) : List TransactionId → FiniteMap TransactionId SubmissionStatus →
    List TransactionId × FiniteMap TransactionId SubmissionStatus
  | [], statuses => ([], statuses)
  | id :: rest, statuses =>
    if limit < rest.length + 1 then
      evict limit rest (if statuses.get? id = some .discarded then statuses.erase id else statuses)
    else (id :: rest, statuses)

def discard (l : Ledger) : List Certificate × Ledger :=
  let ids := l.queue.map Transaction.id
  let statuses := ids.foldl (fun m id => m.insert id .discarded) l.statuses
  let (discarded, statuses) := evict l.config.maxDiscarded (l.discarded ++ ids) statuses
  (l.queue.map Transaction.certificate, { l with queue := [], latest := .empty, statuses, discarded })

def status (l : Ledger) (id : TransactionId) : Except LedgerError (Option SubmissionStatus) := do
  match l.statuses.get? id with
  | some status => pure (some status)
  | none => return (← (l.store.tables.transactionBlock? id).mapError .store).map .succeeded

def ensureRoot (l : Ledger) (now : UInt64) : Except LedgerError Block × Ledger :=
  let (result, store) := l.store.ensureRoot now
  (result.mapError .store, { l with store })

end Ledger

end SignedLedger
