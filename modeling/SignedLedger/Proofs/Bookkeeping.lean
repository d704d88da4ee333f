import SignedLedger.Proofs.PendingQueue

/-! The books of a ledger. The queue, the latest transactions, the statuses and the discards that are
remembered tell one story, and what a status says of a transaction is what has become of it. -/

namespace SignedLedger

namespace Ledger

/-- What a call does to transactions. -/
def fates (l : Ledger) : LedgerCall → Fates
  | .submit entities contracts c =>
    match (l.submit entities contracts c).1 with
    | .ok id => [(id, .pending)]
    | .error _ => []
  | .append fresh now =>
    match (l.append fresh now).1 with
    | .ok b => (l.queue.map Transaction.id).map (·, .succeeded b.id)
    | .error _ => []
  | .discard => (l.queue.map Transaction.id).map (·, .discarded)
  | .ensureRoot _ => []

def history (l : Ledger) : List LedgerCall → Fates
  | [] => []
  | c :: calls => l.fates c ++ (l.call c).history calls

def journal (l : Ledger) : List LedgerCall → TransactionLog
  | [] => []
  | c :: calls => l.committed c ++ (l.call c).journal calls

/-- That the books are kept: `log` is what is recorded and `past` is what has befallen transactions. -/
structure Bookkept (l : Ledger) (log : TransactionLog) (past : Fates) : Prop where
  recorded : l.store.tables.Indexes log
  queueDistinct : (l.queue.map Transaction.id).Nodup
  queueUnrecorded : ∀ id ∈ l.queue.map Transaction.id, l.store.tables.transaction? id = .ok none
  queueBounded : l.queue.length ≤ l.config.maxPending
  latest : ∀ a, l.latest.get? a = Transaction.lastOf l.queue a
  discardedDistinct : l.discarded.Nodup
  discardedUnqueued : ∀ id ∈ l.discarded, id ∉ l.queue.map Transaction.id
  discardedUnrecorded : ∀ id ∈ l.discarded, l.store.tables.transaction? id = .ok none
  discardedBounded : l.discarded.length ≤ l.config.maxDiscarded
  discardedLatest : l.discarded <:+ past.discarded
  /-- The next discard forgets the oldest ones only, and only where there are too many. -/
  forgets : l.discard.2.discarded =
    (l.discarded ++ l.queue.map Transaction.id).rtake l.config.maxDiscarded

/-- That every status is told, and told truly. -/
structure Truthful (l : Ledger) (log : TransactionLog) : Prop where
  pending : ∀ id, l.status id = .ok (some .pending) ↔ id ∈ l.queue.map Transaction.id
  discarded : ∀ id, l.status id = .ok (some .discarded) ↔ id ∈ l.discarded
  succeeded : ∀ id b, l.status id = .ok (some (.succeeded b)) ↔ ∃ e ∈ log, e.id = id ∧ e.block = b
  unknown : ∀ id, l.status id = .ok none ↔
    id ∉ l.queue.map Transaction.id ∧ id ∉ l.discarded ∧ ∀ e ∈ log, e.id ≠ id

/-- What every call preserves. A transaction that is known is known once, and its status is told
from where it is. -/
structure Books (l : Ledger) (log : TransactionLog) (past : Fates) : Prop extends
    Queues l log where
  distinct : l.known.Nodup
  unrecorded : ∀ id ∈ l.known, log.found? id = none
  room : l.queue.length ≤ l.config.maxPending
  bounded : l.discarded.length ≤ l.config.maxDiscarded
  suffix : l.discarded <:+ past.discarded
  statuses : ∀ id, l.statuses.get? id =
    if id ∈ l.queue.map Transaction.id then some .pending
    else if id ∈ l.discarded then some .discarded
    else none

variable {l : Ledger} {log : TransactionLog} {past : Fates} {id : TransactionId}
variable {store : Store} {block : BlockId}

theorem books_start (config : LedgerConfig) (h : store.tables.Indexes log) :
    (start config store).Books log [] where
  toQueues := queues_start config h
  distinct := List.nodup_nil
  unrecorded := by simp [known, start]
  room := Nat.zero_le _
  bounded := Nat.zero_le _
  suffix := List.suffix_refl []
  statuses := by simp [start]

theorem Books.not_mem_discarded (h : l.Books log past) (hid : id ∈ l.queue.map Transaction.id) :
    id ∉ l.discarded := by
  obtain ⟨_, _, hdisjoint⟩ := List.nodup_append'.mp h.distinct
  exact fun hd => hdisjoint hd hid

theorem Books.enqueue {s : Submission} {x : Transaction} (h : s.ledger.Books log past)
    (ho : s.outcome = .ok (id, x)) :
    (s.ledger.enqueue id x).Books log (past ++ [(id, .pending)]) := by
  obtain ⟨hqueue, hlog⟩ := h.toQueues.not_mem ho
  have hid := Submission.outcome_id ho
  obtain ⟨_, hopen, _⟩ := Submission.outcome_eq_ok_iff.mp ho
  have hq := h.toQueues.enqueue ho
  subst hid
  -- Wherever `x` was remembered, it has moved to the end.
  have hknown : (s.ledger.enqueue x.id x).known =
      (s.ledger.known.filter fun d => d ≠ x.id) ++ [x.id] := by
    have hkept : (s.ledger.queue.map Transaction.id).filter (fun d => d ≠ x.id) =
        s.ledger.queue.map Transaction.id := by
      rw [List.filter_eq_self]
      exact fun d hd => decide_eq_true fun he => hqueue (he ▸ hd)
    rw [known, known, List.filter_append, hkept]
    simp [Ledger.enqueue]
  refine
    { hq with
      distinct := ?distinct
      unrecorded := ?unrecorded
      room := ?room
      bounded := ?bounded
      suffix := ?suffix
      statuses := ?statuses }
  case distinct =>
    rw [hknown, List.nodup_append']
    refine ⟨h.distinct.filter _, List.nodup_singleton _, ?_⟩
    simp
  case unrecorded =>
    rw [hknown]
    intro d hd
    rcases List.mem_append.mp hd with hd | hd
    · exact h.unrecorded d (List.mem_filter.mp hd).1
    · rw [List.mem_singleton.mp hd]
      exact hlog
  case room =>
    have hroom := Nat.succ_le_of_lt hopen.room
    simpa [Ledger.enqueue] using hroom
  case bounded =>
    exact (List.length_filter_le ..).trans h.bounded
  case suffix =>
    have hne : SubmissionStatus.pending ≠ .discarded := by decide
    simpa [Ledger.enqueue] using Fates.filter_suffix h.suffix hne [x.id]
  case statuses =>
    intro d
    have hs := h.statuses d
    rw [Ledger.enqueue, FiniteMap.get?_insert]
    by_cases hd : d = x.id
    · simp [hd]
    · simpa [hd] using hs

theorem foldl_settle_discarded (xs : List Transaction) :
    (xs.foldl settle l).discarded = l.discarded := by
  induction xs generalizing l with
  | nil => rfl
  | cons x xs ih => exact ih

theorem Books.settled (h : l.Books log past)
    (hq : (l.settled store).Queues (log ++ l.queue.map (LogEntry.mk block))) :
    (l.settled store).Books (log ++ l.queue.map (LogEntry.mk block))
      (past ++ (l.queue.map Transaction.id).map (·, .succeeded block)) := by
  have hdiscarded : (l.settled store).discarded = l.discarded := foldl_settle_discarded _
  have hknown : (l.settled store).known = l.discarded :=
    (List.append_nil _).trans hdiscarded
  obtain ⟨hdistinct, _, hdisjoint⟩ := List.nodup_append'.mp h.distinct
  refine
    { hq with
      distinct := ?distinct
      unrecorded := ?unrecorded
      room := ?room
      bounded := ?bounded
      suffix := ?suffix
      statuses := ?statuses }
  case distinct =>
    rw [hknown]
    exact hdistinct
  case unrecorded =>
    rw [hknown]
    intro id hid
    exact TransactionLog.found?_append_map_eq_none_iff.mpr
      ⟨h.unrecorded id (List.mem_append_left _ hid), hdisjoint hid⟩
  case room =>
    exact Nat.zero_le _
  case bounded =>
    rw [hdiscarded, settled_config]
    exact h.bounded
  case suffix =>
    have hne : SubmissionStatus.succeeded block ≠ .discarded := by simp
    rw [hdiscarded, ← filter_not_mem_of_disjoint hdisjoint]
    exact Fates.filter_suffix h.suffix hne _
  case statuses =>
    intro id
    have hs := h.statuses id
    have hnone : id ∉ (l.settled store).queue.map Transaction.id := List.not_mem_nil
    rw [if_neg hnone, hdiscarded, Ledger.settled]
    dsimp only
    rw [foldl_settle_statuses]
    by_cases hid : id ∈ l.queue.map Transaction.id
    · rw [if_pos hid, if_neg (h.not_mem_discarded hid)]
    · rwa [if_neg hid] at hs ⊢

theorem Books.discard (h : l.Books log past) :
    l.discard.2.Books log (past ++ (l.queue.map Transaction.id).map (·, .discarded)) := by
  have hsuffix : l.discard.2.discarded <:+ l.known := by
    rw [discard_discarded]
    exact List.drop_suffix ..
  have hknown : l.discard.2.known = l.discard.2.discarded := List.append_nil _
  refine
    { h.toQueues.discard with
      distinct := ?distinct
      unrecorded := ?unrecorded
      room := ?room
      bounded := ?bounded
      suffix := ?suffix
      statuses := ?statuses }
  case distinct =>
    rw [hknown]
    exact hsuffix.sublist.nodup h.distinct
  case unrecorded =>
    rw [hknown]
    exact fun id hid => h.unrecorded id (hsuffix.subset hid)
  case room =>
    exact Nat.zero_le _
  case bounded =>
    rw [discard_discarded]
    exact length_rtake_le ..
  case suffix =>
    exact hsuffix.trans (Fates.append_suffix h.suffix h.distinct)
  case statuses =>
    intro id
    have hnone : id ∉ l.discard.2.queue.map Transaction.id := List.not_mem_nil
    rw [if_neg hnone, get?_discard, discard_discarded, h.statuses]
    simp only [mem_rtake_iff h.distinct]
    by_cases hq : id ∈ l.queue.map Transaction.id
    · simp [hq, known]
    · by_cases hd : id ∈ l.discarded
      · simp [hq, hd, known]
      · simp [hq, hd, known]

theorem Books.call (h : l.Books log past) (c : LedgerCall) :
    (l.call c).Books (log ++ l.committed c) (past ++ l.fates c) := by
  have hq := h.toQueues.call c
  cases c with
  | submit entities contracts c =>
    rcases l.submit_cases entities contracts c with ⟨_, hs⟩ | ⟨id, x, ha, hs⟩
    · simpa only [Ledger.call, committed, fates, hs, List.append_nil] using h
    · have ho : Submission.outcome ⟨l, entities, contracts, c⟩ = .ok (id, x) := ha
      simpa only [Ledger.call, committed, fates, hs, List.append_nil] using Books.enqueue h ho
  | append fresh now =>
    rcases l.append_cases fresh now with ⟨_, _, ha⟩ | ⟨b, t, ht, ha⟩
    · simpa only [Ledger.call, committed, fates, ha, List.append_nil] using h
    · simp only [Ledger.call, committed, fates, ha] at hq ⊢
      exact h.settled hq
  | discard => simpa only [Ledger.call, committed, fates, List.append_nil] using h.discard
  | ensureRoot now =>
    simp only [committed, fates, List.append_nil] at hq ⊢
    exact { h with toQueues := hq }

theorem Books.run (h : l.Books log past) (calls : List LedgerCall) :
    (l.run calls).Books (log ++ l.journal calls) (past ++ l.history calls) := by
  induction calls generalizing l log past with
  | nil => simpa [Ledger.run, journal, history] using h
  | cons c calls ih =>
    have hc := ih (h.call c)
    rwa [List.append_assoc, List.append_assoc] at hc

theorem Books.transaction?_eq_none (h : l.Books log past) (hid : id ∈ l.known) :
    l.store.tables.transaction? id = .ok none := by
  rw [h.indexes.transaction?, TransactionLog.transaction?, h.unrecorded id hid, Option.map_none]

theorem Books.bookkept (h : l.Books log past) : l.Bookkept log past := by
  obtain ⟨hdiscarded, hqueue, hdisjoint⟩ := List.nodup_append'.mp h.distinct
  exact
    { recorded := h.indexes
      queueDistinct := hqueue
      queueUnrecorded := fun _ hid => h.transaction?_eq_none (List.mem_append_right _ hid)
      queueBounded := h.room
      latest := h.latest
      discardedDistinct := hdiscarded
      discardedUnqueued := fun _ hid => hdisjoint hid
      discardedUnrecorded := fun _ hid => h.transaction?_eq_none (List.mem_append_left _ hid)
      discardedBounded := h.bounded
      discardedLatest := h.suffix
      forgets := l.discard_discarded }

/-- The status of a transaction is told by the first place where it is. -/
theorem Books.status_eq (h : l.Books log past) (id : TransactionId) :
    l.status id = .ok (if id ∈ l.queue.map Transaction.id then some .pending
      else if id ∈ l.discarded then some .discarded
      else (log.found? id).map fun e => .succeeded e.block) := by
  unfold status
  rw [h.statuses]
  by_cases hq : id ∈ l.queue.map Transaction.id
  · simp only [if_pos hq, pure_eq_ok]
  by_cases hd : id ∈ l.discarded
  · simp only [if_neg hq, if_pos hd, pure_eq_ok]
  · simp only [if_neg hq, if_neg hd]
    rw [Tables.transactionBlock?, h.indexes.transaction?, TransactionLog.transaction?]
    cases log.found? id <;> rfl

theorem Books.not_mem_known (h : l.Books log past) {e : LogEntry} (he : e ∈ log) :
    e.id ∉ l.known :=
  fun hid => TransactionLog.found?_eq_none_iff.mp (h.unrecorded e.id hid) e he rfl

theorem Books.truthful (h : l.Books log past) : l.Truthful log where
  pending := by
    intro id
    rw [h.status_eq, Except.ok.injEq]
    by_cases hq : id ∈ l.queue.map Transaction.id
    · simp only [hq, if_true]
    · rw [if_neg hq, iff_false_right hq]
      split <;> simp
  discarded := by
    intro id
    rw [h.status_eq, Except.ok.injEq]
    by_cases hd : id ∈ l.discarded
    · have hq : id ∉ l.queue.map Transaction.id := fun hq => h.not_mem_discarded hq hd
      simp only [hd, hq, if_true, if_false]
    · rw [if_neg hd, iff_false_right hd]
      split <;> simp
  succeeded := by
    intro id b
    rw [h.status_eq, Except.ok.injEq]
    constructor
    · intro hs
      split at hs
      · cases hs
      split at hs
      · cases hs
      obtain ⟨e, hfound, hblock⟩ := Option.map_eq_some_iff.mp hs
      obtain ⟨he, hid⟩ := TransactionLog.found?_eq_some hfound
      exact ⟨e, he, hid, SubmissionStatus.succeeded.inj hblock⟩
    · rintro ⟨e, he, rfl, rfl⟩
      obtain ⟨hd, hq⟩ := not_or.mp (List.mem_append.not.mp (h.not_mem_known he))
      rw [if_neg hq, if_neg hd, h.indexes.valid.found?_of_mem he, Option.map_some]
  unknown := by
    intro id
    rw [h.status_eq, Except.ok.injEq]
    by_cases hq : id ∈ l.queue.map Transaction.id
    · simp [hq]
    by_cases hd : id ∈ l.discarded
    · simp [hq, hd]
    · rw [if_neg hq, if_neg hd, Option.map_eq_none_iff, TransactionLog.found?_eq_none_iff]
      exact ⟨fun hnone => ⟨hq, hd, hnone⟩, fun hall => hall.2.2⟩

/-- Whatever is called, and whatever fails, the books are kept and every status is true. -/
theorem run_bookkept (config : LedgerConfig) (signer : BlockSigner) (earlier : List StoreCall)
    (calls : List LedgerCall) :
    let l := start config ((Store.start signer).run earlier)
    let log := (Store.start signer).journal earlier ++ l.journal calls
    (l.run calls).Bookkept log (l.history calls) ∧ (l.run calls).Truthful log := by
  intro l log
  have hbooks : l.Books ((Store.start signer).journal earlier) [] :=
    books_start config (Store.run_start_indexes signer earlier)
  exact ⟨(hbooks.run calls).bookkept, (hbooks.run calls).truthful⟩

end Ledger

end SignedLedger
