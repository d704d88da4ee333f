import SignedLedger.Proofs.ArtifactChain
import SignedLedger.Proofs.PendingQueue
import SignedLedger.Proofs.QueueCommit

/-! The pending state as a prediction. A ledger keeps the latest queued transaction of every
artifact as it goes, while the store works out the latest recorded one from the batch. Once the
queue is committed both say the same, also where nothing is validated on submission and where others
write to the store past the queue. -/

namespace SignedLedger

/-- A call to a ledger, or one to its store past the queue. -/
inductive SharedCall where
  | ledger (c : LedgerCall)
  | store (c : StoreCall)

namespace TransactionLog

theorem artifactWith_last (log : TransactionLog) (e : LogEntry) :
    (log.artifactWith e).last = e.id := by
  unfold artifactWith
  split <;> rfl

theorem map_last_append_map (log : TransactionLog) (block : BlockId) (xs : List Transaction)
    (a : ArtifactId) :
    (artifact? (log ++ xs.map (LogEntry.mk block)) a).map Artifact.last =
      (Transaction.lastOf xs a).or ((log.artifact? a).map Artifact.last) := by
  induction xs using List.reverseRecOn with
  | nil => simp [Transaction.lastOf]
  | append_singleton xs x ih =>
    rw [List.map_append, ← List.append_assoc, List.map_singleton, artifact?_append,
      Transaction.lastOf_append, LogEntry.artifact_mk]
    by_cases ha : a = x.artifact
    · rw [if_pos ha, if_pos ha, Option.map_some, artifactWith_last]
      rfl
    · rw [if_neg ha, if_neg ha, ih]

end TransactionLog

theorem Tables.Indexes.artifactState {t : Tables} {log : TransactionLog} (h : t.Indexes log)
    (a : ArtifactId) : t.artifactState a = .ok ((log.artifact? a).map Artifact.last) := by
  rw [Tables.artifactState, h.artifact?]

namespace Ledger

def callShared (l : Ledger) : SharedCall → Ledger
  | .ledger c => l.call c
  | .store c => { l with store := l.store.call c }

def runShared (l : Ledger) (calls : List SharedCall) : Ledger :=
  calls.foldl callShared l

/-- That the latest transactions are those of the queue, and that the certificates in it read as its
transactions. -/
structure Tracks (l : Ledger) : Prop where
  indexed : ∃ log, l.store.tables.Indexes log
  parsed : ∀ x ∈ l.queue, Transaction.parse x.certificate = .ok x
  latest : ∀ a, l.latest.get? a = Transaction.lastOf l.queue a

variable {l : Ledger} {fresh : BlockId} {now : UInt64} {b : Block}

theorem tracks_start (config : LedgerConfig) (signer : BlockSigner) :
    (start config (.start signer)).Tracks where
  indexed := ⟨[], Tables.indexes_empty⟩
  parsed := nofun
  latest := fun _ => rfl

theorem Tracks.settled (h : l.Tracks) {store : Store} (hs : ∃ log, store.tables.Indexes log) :
    (l.settled store).Tracks where
  indexed := by rwa [settled_store]
  parsed := nofun
  latest := settled_latest h.latest store

theorem Tracks.storeCall (h : l.Tracks) (c : StoreCall) :
    Tracks { l with store := l.store.call c } where
  indexed := by
    obtain ⟨log, hlog⟩ := h.indexed
    exact ⟨_, Store.call_indexes hlog⟩
  parsed := h.parsed
  latest := h.latest

theorem Tracks.call (h : l.Tracks) (c : LedgerCall) : (l.call c).Tracks := by
  cases c with
  | submit entities contracts c =>
    rcases l.submit_cases entities contracts c with ⟨_, hs⟩ | ⟨id, x, ha, hs⟩
    · simpa only [Ledger.call, hs] using h
    · have ho : Submission.outcome ⟨l, entities, contracts, c⟩ = .ok (id, x) := ha
      obtain rfl : id = x.id := Submission.outcome_id ho
      simp only [Ledger.call, hs]
      exact ⟨h.indexed,
        List.forall_mem_append.mpr ⟨h.parsed, by simpa using Submission.outcome_parse ho⟩,
        enqueue_latest h.latest x⟩
  | append fresh now =>
    rcases l.append_cases fresh now with ⟨_, _, ha⟩ | ⟨b, t, ht, ha⟩
    · simpa only [Ledger.call, ha] using h
    · obtain ⟨log, hlog⟩ := h.indexed
      simpa only [Ledger.call, ha] using h.settled ⟨_, append_indexes h.parsed hlog ht⟩
  | discard => exact ⟨h.indexed, List.forall_mem_nil _, fun _ => rfl⟩
  | ensureRoot now => exact h.storeCall (.ensureRoot now)

theorem Tracks.runShared (h : l.Tracks) (calls : List SharedCall) : (l.runShared calls).Tracks := by
  induction calls generalizing l with
  | nil => exact h
  | cons c calls ih =>
    cases c with
    | ledger c => exact ih (h.call c)
    | store c => exact ih (h.storeCall c)

theorem Tracks.pendingState (h : l.Tracks) {log : TransactionLog}
    (hlog : l.store.tables.Indexes log) (a : ArtifactId) :
    l.pendingState a =
      .ok ((Transaction.lastOf l.queue a).or ((log.artifact? a).map Artifact.last)) := by
  rw [Ledger.pendingState, h.latest, hlog.artifactState]
  cases Transaction.lastOf l.queue a <;> rfl

/-- That the pending state of every artifact is what an append leaves in the store, and what is
pending afterwards. -/
def Predicts (l after : Ledger) : Prop :=
  ∀ a, ∃ latest, l.pendingState a = .ok latest ∧
    after.store.tables.artifactState a = .ok latest ∧ after.pendingState a = .ok latest

theorem Tracks.predicts (h : l.Tracks) (hb : (l.append fresh now).1 = .ok b) :
    l.Predicts (l.append fresh now).2 := by
  intro a
  rcases l.append_cases fresh now with ⟨_, _, ha⟩ | ⟨b', t, ht, ha⟩
  · rw [ha] at hb
    cases hb
  · obtain ⟨log, hlog⟩ := h.indexed
    have hi := append_indexes h.parsed hlog ht
    have hsettled : (l.settled { l.store with tables := t }).Tracks := h.settled ⟨_, hi⟩
    have hstore : (l.settled { l.store with tables := t }).store.tables.Indexes
        (log ++ l.queue.map (LogEntry.mk fresh)) := by rwa [settled_store]
    refine ⟨_, h.pendingState hlog a, ?_, ?_⟩
    · rw [ha, hstore.artifactState, TransactionLog.map_last_append_map]
    · rw [ha, hsettled.pendingState hstore, TransactionLog.map_last_append_map]
      rfl

/-- Whatever was called before, the next append that succeeds makes the pending state the recorded
one. -/
theorem runShared_predicts (config : LedgerConfig) (signer : BlockSigner) (calls : List SharedCall)
    (fresh : BlockId) (now : UInt64) (b : Block)
    (hb : (((start config (.start signer)).runShared calls).append fresh now).1 = .ok b) :
    ((start config (.start signer)).runShared calls).Predicts
      (((start config (.start signer)).runShared calls).append fresh now).2 :=
  ((tracks_start config signer).runShared calls).predicts hb

end Ledger

/-! A transaction is queued before the one that it extends, which is recorded past the queue. -/

namespace Sample

def overtaking : List SharedCall :=
  [.ledger (.submit entities .none (following ⟨.ofNat 16 5⟩ ⟨.ofNat 16 4⟩).certificate),
    .store (appending ⟨.ofNat 16 3⟩ [starting ⟨.ofNat 16 4⟩])]

def overtaken : Ledger :=
  (Ledger.start { validateOnSubmit := false } (.start signer)).runShared overtaking

end Sample

namespace Ledger

theorem predicts_overtaken : ∃ b, (Sample.overtaken.append ⟨.ofNat 16 6⟩ 0).1 = .ok b ∧
    Sample.overtaken.Predicts (Sample.overtaken.append ⟨.ofNat 16 6⟩ 0).2 ∧
    Sample.overtaken.store.tables.artifactState Sample.artifact = .ok (some ⟨.ofNat 16 4⟩) ∧
    Sample.overtaken.pendingState Sample.artifact = .ok (some ⟨.ofNat 16 5⟩) := by
  cases hb : (Sample.overtaken.append ⟨.ofNat 16 6⟩ 0).1 with
  | error e =>
    have hok : (Sample.overtaken.append ⟨.ofNat 16 6⟩ 0).1.toBool = true := by decide +kernel
    rw [hb] at hok
    cases hok
  | ok b =>
    have hpredicts : Sample.overtaken.Predicts (Sample.overtaken.append ⟨.ofNat 16 6⟩ 0).2 :=
      runShared_predicts _ _ Sample.overtaking _ _ b hb
    exact ⟨b, rfl, hpredicts, by decide +kernel, by decide +kernel⟩

end Ledger

end SignedLedger
