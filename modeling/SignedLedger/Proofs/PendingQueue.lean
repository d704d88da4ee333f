import SignedLedger.Proofs.Acceptance
import SignedLedger.Proofs.Discards
import SignedLedger.Proofs.LedgerRun
import SignedLedger.Proofs.TransactionBatch

/-! The queue as a continuation of the log. Attestation against the pending state and the checks of
the store ask the same of a transaction: that it extends the log and the transactions queued before
it. A queue that was validated on submission can therefore be committed as it stands. -/

namespace SignedLedger

namespace Ledger

variable {l : Ledger} {log : TransactionLog} {block : BlockId} {t : Tables} {id : TransactionId}

/-- That `log` is what is recorded, and that the queue is kept: what is pending is what is queued,
the latest transactions are those of the queue, and a queue that was validated continues the log in
whatever block it is committed. -/
structure Queues (l : Ledger) (log : TransactionLog) : Prop where
  indexes : l.store.tables.Indexes log
  parsed : ∀ x ∈ l.queue, Transaction.parse x.certificate = .ok x
  pending : ∀ id, l.statuses.get? id = some .pending ↔ id ∈ l.queue.map Transaction.id
  latest : ∀ a, l.latest.get? a = Transaction.lastOf l.queue a
  valid : l.config.validateOnSubmit = true →
    ∀ block, TransactionLog.Valid (log ++ l.queue.map (LogEntry.mk block))

theorem queues_start (config : LedgerConfig) {store : Store} (h : store.tables.Indexes log) :
    (start config store).Queues log where
  indexes := h
  parsed := by simp [start]
  pending := by simp [start]
  latest := by simp [start, Transaction.lastOf]
  valid := fun _ _ => by simpa [start] using h.valid

/-! A submission that is accepted. -/

theorem enqueue_latest (h : ∀ a, l.latest.get? a = Transaction.lastOf l.queue a) (x : Transaction)
    (a : ArtifactId) :
    (l.enqueue x.id x).latest.get? a = Transaction.lastOf (l.queue ++ [x]) a := by
  rw [Ledger.enqueue, FiniteMap.get?_insert, Transaction.lastOf_append, h]

theorem Queues.pendingState (h : l.Queues log) (block : BlockId) (a : ArtifactId) :
    ∃ latest, l.pendingState a = .ok latest ∧
      latest.getD .nil = TransactionLog.latest (log ++ l.queue.map (LogEntry.mk block)) a := by
  rw [TransactionLog.latest_append_map, ← h.latest, Ledger.pendingState]
  cases l.latest.get? a with
  | some i => exact ⟨some i, rfl, rfl⟩
  | none => exact ⟨_, by rw [Tables.artifactState, h.indexes.artifact?], (log.latest_eq a).symm⟩

section

variable {s : Submission} {x : Transaction}

theorem Queues.not_mem (h : s.ledger.Queues log) (ho : s.outcome = .ok (id, x)) :
    x.id ∉ s.ledger.queue.map Transaction.id ∧ log.found? x.id = none := by
  obtain ⟨parsed, hopen, hid, _⟩ := Submission.outcome_eq_ok_iff.mp ho
  rw [Submission.outcome_id ho] at hid
  constructor
  · rw [← h.pending, ← hid]
    exact hopen.notPending
  · have hfree := hopen.notRecorded
    rw [h.indexes.transaction?, hid] at hfree
    simpa [TransactionLog.transaction?] using hfree

theorem Queues.extends (h : s.ledger.Queues log) (ho : s.outcome = .ok (id, x))
    (hv : s.ledger.config.validateOnSubmit = true) (block : BlockId) :
    TransactionLog.Extends (log ++ s.ledger.queue.map (LogEntry.mk block)) x := by
  apply TransactionLog.extends_of_latest
  · obtain ⟨hqueue, hlog⟩ := h.not_mem ho
    rw [TransactionLog.found?_eq_none_iff]
    intro e he
    rcases List.mem_append.mp he with he | he
    · exact TransactionLog.found?_eq_none_iff.mp hlog e he
    · obtain ⟨y, hy, rfl⟩ := List.mem_map.mp he
      exact fun hid => hqueue (hid ▸ List.mem_map_of_mem hy)
  · obtain ⟨a, fields, message, signature, hx⟩ := Submission.exists_validates ho hv
    obtain ⟨latest, hstate, hprevious⟩ := hx.previous_eq
    obtain ⟨latest', hstate', hlatest⟩ := h.pendingState block x.artifact
    rw [hstate, Except.ok.injEq] at hstate'
    rw [hprevious, hstate', hlatest]

theorem Queues.enqueue (h : s.ledger.Queues log) (ho : s.outcome = .ok (id, x)) :
    (s.ledger.enqueue id x).Queues log where
  indexes := h.indexes
  parsed := List.forall_mem_append.mpr ⟨h.parsed, by simpa using Submission.outcome_parse ho⟩
  pending := by
    intro i
    have hp := h.pending i
    rw [Submission.outcome_id ho, Ledger.enqueue, FiniteMap.get?_insert]
    by_cases hi : i = x.id
    · simp [hi]
    · simpa [hi] using hp
  latest := by
    rw [Submission.outcome_id ho]
    exact enqueue_latest h.latest x
  valid := by
    intro hv block
    have hnew : TransactionLog.Extends (log ++ s.ledger.queue.map (LogEntry.mk block))
        (LogEntry.mk block x).transaction := h.extends ho hv block
    have hvalid := (h.valid hv block).snoc hnew
    simpa [Ledger.enqueue] using hvalid

end

/-! A commit. -/

theorem foldl_settle_statuses (xs : List Transaction) (id : TransactionId) :
    (xs.foldl settle l).statuses.get? id =
      if id ∈ xs.map Transaction.id then none else l.statuses.get? id := by
  induction xs generalizing l with
  | nil => simp
  | cons x xs ih =>
    rw [List.foldl_cons, ih, settle, FiniteMap.get?_erase]
    by_cases hid : id = x.id
    · simp [hid]
    · simp [hid]

theorem settle_latest (l : Ledger) (x : Transaction) (a : ArtifactId) :
    (l.settle x).latest.get? a =
      if x.artifact = a ∧ l.latest.get? a = some x.id then none else l.latest.get? a := by
  unfold settle
  by_cases ha : x.artifact = a
  · subst ha
    by_cases hl : l.latest.get? x.artifact = some x.id
    · simp [hl, FiniteMap.get?_erase]
    · simp [hl]
  · by_cases hl : l.latest.get? x.artifact = some x.id
    · simp [hl, ha, Ne.symm ha, FiniteMap.get?_erase]
    · simp [hl, ha]

theorem foldl_settle_latest (xs : List Transaction) (a : ArtifactId) :
    (xs.foldl settle l).latest.get? a =
      if ∃ x ∈ xs, x.artifact = a ∧ l.latest.get? a = some x.id then none else l.latest.get? a := by
  induction xs generalizing l with
  | nil => simp
  | cons x xs ih =>
    rw [List.foldl_cons, ih, settle_latest]
    by_cases hx : x.artifact = a ∧ l.latest.get? a = some x.id
    · simp [hx]
    · simp [hx]

/-- What was the latest queued transaction of an artifact has been settled. -/
theorem settled_latest (h : ∀ a, l.latest.get? a = Transaction.lastOf l.queue a) (store : Store)
    (a : ArtifactId) : (l.settled store).latest.get? a = none := by
  rw [Ledger.settled, foldl_settle_latest]
  dsimp only
  cases hl : l.latest.get? a with
  | none => simp
  | some i =>
    obtain ⟨x, hx, ha, hi⟩ := Transaction.exists_of_lastOf ((h a).symm.trans hl)
    rw [if_pos ⟨x, hx, ha, by rw [hi]⟩]

theorem append_indexes (hparsed : ∀ x ∈ l.queue, Transaction.parse x.certificate = .ok x)
    (h : l.store.tables.Indexes log) {fresh : BlockId} {now : UInt64} {b : Block}
    (ht : Tables.append l.store.signer fresh now l.waiting l.store.tables = .ok (b, t)) :
    t.Indexes (log ++ l.queue.map (LogEntry.mk fresh)) := by
  obtain ⟨xs, hxs, hparse, hi⟩ := Tables.append_indexes h ht
  rwa [← filterMap_ofCertificate? fresh hparse, hxs, waiting,
    filterMap_ofCertificate? fresh hparsed] at hi

theorem Queues.settled (h : l.Queues log)
    (ht : t.Indexes (log ++ l.queue.map (LogEntry.mk block))) :
    (l.settled { l.store with tables := t }).Queues (log ++ l.queue.map (LogEntry.mk block)) where
  indexes := by
    rw [settled_store]
    exact ht
  parsed := by simp [Ledger.settled]
  pending := by
    intro id
    have hp := h.pending id
    rw [Ledger.settled, foldl_settle_statuses]
    by_cases hid : id ∈ l.queue.map Transaction.id
    · simp [hid]
    · simpa [hid] using hp
  latest := settled_latest h.latest _
  valid := fun _ _ => by simpa [Ledger.settled] using ht.valid

/-! A discard. -/

theorem Queues.discard (h : l.Queues log) : l.discard.2.Queues log where
  indexes := h.indexes
  parsed := by simp [Ledger.discard]
  pending := by
    intro id
    have hp := h.pending id
    have hempty : id ∉ l.discard.2.queue.map Transaction.id := List.not_mem_nil
    rw [get?_discard, iff_false_right hempty]
    split
    · simp
    · split
      · simp
      · rename_i hid
        exact fun hs => hid (hp.mp hs)
  latest := by simp [Ledger.discard, Transaction.lastOf]
  valid := fun _ _ => by simpa [Ledger.discard] using h.indexes.valid

/-! Runs. -/

theorem Queues.call (h : l.Queues log) (c : LedgerCall) :
    (l.call c).Queues (log ++ l.committed c) := by
  cases c with
  | submit entities contracts c =>
    rcases l.submit_cases entities contracts c with ⟨_, hs⟩ | ⟨id, x, ha, hs⟩
    · simpa only [Ledger.call, committed, hs, List.append_nil] using h
    · have ho : Submission.outcome ⟨l, entities, contracts, c⟩ = .ok (id, x) := ha
      simpa only [Ledger.call, committed, hs, List.append_nil] using Queues.enqueue h ho
  | append fresh now =>
    rcases l.append_cases fresh now with ⟨_, _, ha⟩ | ⟨b, t, ht, ha⟩
    · simpa only [Ledger.call, committed, ha, List.append_nil] using h
    · obtain ⟨_, _, _, _, _, _, _, hb, _⟩ := Tables.append_eq_ok ht
      have hid : b.id = fresh := congrArg Block.id hb
      simpa only [Ledger.call, committed, ha, hid] using
        h.settled (append_indexes h.parsed h.indexes ht)
  | discard => simpa only [Ledger.call, committed, List.append_nil] using h.discard
  | ensureRoot now =>
    have hi := Store.call_indexes (c := .ensureRoot now) h.indexes
    rw [show l.store.entries (.ensureRoot now) = [] from rfl, List.append_nil] at hi
    have hq : (l.call (.ensureRoot now)).Queues log := { h with indexes := hi }
    simpa only [committed, List.append_nil] using hq

theorem Queues.run (h : l.Queues log) (calls : List LedgerCall) :
    ∃ log', (l.run calls).Queues log' := by
  induction calls generalizing l log with
  | nil => exact ⟨log, h⟩
  | cons c calls ih => exact ih (h.call c)

end Ledger

end SignedLedger
