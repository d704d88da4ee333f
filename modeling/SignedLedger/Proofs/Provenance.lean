import SignedLedger.Proofs.ArtifactChain
import SignedLedger.Proofs.QueueCommit
import SignedLedger.Proofs.Replay

/-! Where recorded bytes come from. Every transaction of the queue and of the log is what a
submission of the run was accepted as. Where submissions are validated, the recorded bytes are
therefore those that a signature covers and the signature itself, and nothing that trailed it. -/

namespace SignedLedger

/-- That the record holds what the signature of submission `s` covers and the signature, and says what
the fields under the signature say. -/
structure RecordedTransaction.Stems (r : RecordedTransaction) (s : Submission) (x : Transaction)
    (a : Attestation) (fields : FieldList) (message signature : Bytes) : Prop where
  accepted : (s.ledger.submit s.entities s.contracts s.certificate).1 = .ok r.id
  attested : s.Attested a fields message signature
  taken : r.certificate = .ofBytes (s.certificate.raw.take a.visible)
  ends : Field.encodeAll (fields ++ [(.signature, signature)]) = .ok r.certificate.raw
  reads : r.Reads x
  describes : fields.Describes x

namespace Tables

def Wrapped (t : Tables) (r : RecordedTransaction) : Prop :=
  ∃ b found, t.block? r.block = .ok (some b) ∧
    b.certificate.fieldsOf .wrappedTransaction = .ok found ∧
    r.certificate.raw ∈ found.map Field.value

/-- That every recorded transaction stems from one of the submissions, with all that is kept of
it. -/
structure Originates (t : Tables) (submissions : List Submission) : Prop where
  transactions : ∀ key value, t.get? .transactions key = some value →
    ∃ r x, RecordedTransaction.decode value = .ok r ∧ key = r.id.bytes ∧
      (∃ s ∈ submissions, ∃ a fields message signature, r.Stems s x a fields message signature) ∧
      ∃ artifact, t.artifact? x.artifact = .ok (some artifact)
  artifacts : ∀ i artifact, t.artifact? i = .ok (some artifact) → artifact.id = i ∧
    (∃ r, t.transaction? artifact.first = .ok (some r) ∧ r.Moves i) ∧
    ∃ r, t.transaction? artifact.last = .ok (some r) ∧ r.Moves i

variable {t : Tables} {log : TransactionLog} {e : LogEntry}

theorem Indexes.artifact?_moves (h : t.Indexes log) (hp : log.Parsed) {i : ArtifactId}
    {artifact : Artifact} (ha : t.artifact? i = .ok (some artifact)) : artifact.id = i ∧
    (∃ r, t.transaction? artifact.first = .ok (some r) ∧ r.Moves i) ∧
    ∃ r, t.transaction? artifact.last = .ok (some r) ∧ r.Moves i := by
  have hmoves : ∀ e ∈ log.of i, ∃ r, t.transaction? e.id = .ok (some r) ∧ r.Moves i := by
    intro e he
    have hm := (TransactionLog.mem_of_iff.mp he).1
    exact ⟨_, h.transaction?_of_mem hm, (hp.moves_iff hm i _).mpr he⟩
  rw [h.artifact?, Except.ok.injEq, TransactionLog.artifact?_eq_some_iff] at ha
  obtain ⟨first, last, hfirst, hlast, rfl⟩ := ha
  exact ⟨rfl, hmoves first (List.mem_of_head? hfirst), hmoves last (List.mem_of_getLast? hlast)⟩

theorem Indexes.exists_artifact? (h : t.Indexes log) (he : e ∈ log) :
    ∃ artifact, t.artifact? e.artifact = .ok (some artifact) := by
  rw [h.artifact?]
  cases ha : log.artifact? e.artifact with
  | none =>
    have hm : e ∈ log.of e.artifact := TransactionLog.mem_of_iff.mpr ⟨he, rfl⟩
    rw [TransactionLog.artifact?_eq_none_iff.mp ha] at hm
    cases hm
  | some artifact => exact ⟨artifact, rfl⟩

theorem Holds.wrapped {s : BlockSigner} {h : BlockHistory} (ht : t.Holds s h) {id : TransactionId}
    {r : RecordedTransaction} (hr : t.transaction? id = .ok (some r)) : t.Wrapped r := by
  obtain ⟨b, hb, hid, x, ⟨found, hfound, f, hf, hx⟩, _, hc⟩ := ht.replayOf.wrapped id r hr
  obtain ⟨e, he, rfl⟩ := List.mem_map.mp hb
  have hblock : t.block? e.block.id = .ok (some e.block) := ht.block?_of_mem he
  have hnested : r.certificate = f.nested := by
    rw [← hc, Transaction.certificate_of_parse hx]
  refine ⟨e.block, found, hid ▸ hblock, hfound, ?_⟩
  rw [hnested]
  exact List.mem_map_of_mem hf

end Tables

namespace Ledger

def submitted (l : Ledger) : LedgerCall → List Submission
  | .submit entities contracts c => [⟨l, entities, contracts, c⟩]
  | .append _ _ => []
  | .discard => []
  | .ensureRoot _ => []

def submissions (l : Ledger) : List LedgerCall → List Submission
  | [] => []
  | c :: calls => l.submitted c ++ (l.call c).submissions calls

/-- That the queue and the log come from the submissions. -/
structure Sources (l : Ledger) (log : TransactionLog) (submissions : List Submission) : Prop where
  queued : ∀ x ∈ l.queue, ∃ s ∈ submissions, s.outcome = .ok (x.id, x)
  recorded : ∀ e ∈ log, ∃ s ∈ submissions, s.outcome = .ok (e.id, e.transaction)

variable {l : Ledger} {log : TransactionLog} {c : LedgerCall} {calls : List LedgerCall}
variable {submissions : List Submission} {s : Submission}

theorem config_of_mem_submissions (hs : s ∈ l.submissions calls) : s.ledger.config = l.config := by
  induction calls generalizing l with
  | nil => cases hs
  | cons c calls ih =>
    rcases List.mem_append.mp hs with hs | hs
    · cases c with
      | submit entities contracts d => rw [List.mem_singleton.mp hs]
      | append => cases hs
      | discard => cases hs
      | ensureRoot => cases hs
    · rw [ih hs, call_config]

theorem mem_queue_call {x : Transaction} (hx : x ∈ (l.call c).queue) :
    x ∈ l.queue ∨ ∃ s ∈ l.submitted c, s.outcome = .ok (x.id, x) := by
  cases c with
  | submit entities contracts d =>
    rcases l.submit_cases entities contracts d with ⟨_, hs⟩ | ⟨id, y, ha, hs⟩
    · rw [call, hs] at hx
      exact .inl hx
    · rw [call, hs] at hx
      rcases List.mem_append.mp hx with hx | hx
      · exact .inl hx
      · have ho : Submission.outcome ⟨l, entities, contracts, d⟩ = .ok (id, y) := ha
        obtain rfl := List.mem_singleton.mp hx
        exact .inr ⟨_, List.mem_cons_self, Submission.outcome_id ho ▸ ho⟩
  | append fresh now =>
    rcases l.append_cases fresh now with ⟨_, _, ha⟩ | ⟨_, _, _, ha⟩
    · rw [call, ha] at hx
      exact .inl hx
    · rw [call, ha] at hx
      cases hx
  | discard => cases hx
  | ensureRoot => exact .inl hx

theorem Sources.call (h : l.Sources log submissions) (c : LedgerCall) :
    (l.call c).Sources (log ++ l.committed c) (submissions ++ l.submitted c) where
  queued := by
    intro x hx
    rcases mem_queue_call hx with hx | ⟨s, hs, ho⟩
    · obtain ⟨s, hs, ho⟩ := h.queued x hx
      exact ⟨s, List.mem_append_left _ hs, ho⟩
    · exact ⟨s, List.mem_append_right _ hs, ho⟩
  recorded := by
    intro e he
    have hsource : ∃ s ∈ submissions, s.outcome = .ok (e.id, e.transaction) := by
      rcases List.mem_append.mp he with he | he
      · exact h.recorded e he
      · exact h.queued e.transaction (mem_queue_of_committed he)
    obtain ⟨s, hs, ho⟩ := hsource
    exact ⟨s, List.mem_append_left _ hs, ho⟩

theorem Sources.run (h : l.Sources log submissions) (hq : l.Queues log) (calls : List LedgerCall) :
    ∃ log', (l.run calls).Queues log' ∧
      (l.run calls).Sources log' (submissions ++ l.submissions calls) := by
  induction calls generalizing l log submissions with
  | nil => exact ⟨log, hq, by simpa [Ledger.submissions, Ledger.run] using h⟩
  | cons c calls ih =>
    obtain ⟨log', hq', h'⟩ := ih (h.call c) (hq.call c)
    rw [List.append_assoc] at h'
    exact ⟨log', hq', h'⟩

theorem Sources.parsed (h : l.Sources log submissions) : log.Parsed := by
  intro e he
  obtain ⟨s, _, ho⟩ := h.recorded e he
  exact Submission.outcome_parse ho

theorem stems_of_outcome {e : LogEntry} (ho : s.outcome = .ok (e.id, e.transaction))
    (hv : s.ledger.config.validateOnSubmit = true) (next : TransactionId) :
    ∃ a fields message signature,
      (e.recorded next).Stems s e.transaction.shown a fields message signature := by
  obtain ⟨a, fields, message, signature, hx⟩ := Submission.exists_validates ho hv
  have hbytes : e.transaction.certificate.visibleBytes =
      FieldList.written .short (fields ++ [(.signature, signature)]) := by
    rw [hx.certificate, hx.size, hx.signs.visibleBytes_narrow]
  have hle : a.visible ≤ s.certificate.visible := by
    rw [hx.size, ← hx.signs.visible_narrow]
    exact Nat.min_le_left ..
  have htake : e.transaction.certificate.visibleBytes = s.certificate.raw.take a.visible := by
    rw [hx.certificate, Certificate.visibleBytes_narrow, Certificate.take_visibleBytes hle]
  have hread := Transaction.parse_certificate_shown (Submission.outcome_parse ho)
  refine ⟨a, fields, message, signature, ?_, hx.toAttested, congrArg Certificate.ofBytes htake, ?_,
    ⟨hread, rfl, rfl⟩, ?_⟩
  · rw [submit, show s.ledger.accept s.entities s.contracts s.certificate = _ from ho]
    rfl
  · exact Field.encodeAll_eq_ok_iff.mpr ⟨hx.signs.fits, hbytes⟩
  · exact ⟨hx.describes.type, hx.describes.id, hx.describes.artifact, hx.describes.previous⟩

/-- Whatever is called, what a ledger that validates submissions records in its store are the signed
parts of submissions that it has attested, and its blocks wrap the same bytes. -/
theorem run_originates (config : LedgerConfig) (hv : config.validateOnSubmit = true)
    (signer : BlockSigner) (calls : List LedgerCall) :
    ((start config (.start signer)).run calls).store.tables.Originates
        ((start config (.start signer)).submissions calls) ∧
      ((start config (.start signer)).Along Admits calls → ∀ id r,
        ((start config (.start signer)).run calls).store.tables.transaction? id = .ok (some r) →
        ((start config (.start signer)).run calls).store.tables.Wrapped r) := by
  have hempty : (Store.start signer).tables.Indexes [] := Tables.indexes_empty
  have hnone : (start config (.start signer)).Sources [] [] := ⟨by simp [start], by simp⟩
  obtain ⟨log, hq, hsources⟩ := hnone.run (queues_start config hempty) calls
  refine ⟨⟨?_, fun i artifact ha => hq.indexes.artifact?_moves hsources.parsed ha⟩, ?_⟩
  · intro key value hvalue
    obtain ⟨e, he, rfl, rfl⟩ := hq.indexes.get?_transactions_iff.mp hvalue
    obtain ⟨s, hs, ho⟩ := hsources.recorded e he
    have hvalidates : s.ledger.config.validateOnSubmit = true := by
      rw [config_of_mem_submissions hs]
      exact hv
    exact ⟨_, e.transaction.shown, e.decode_encode_recorded _ (hq.indexes.small e he), rfl,
      ⟨s, hs, stems_of_outcome ho hvalidates _⟩, hq.indexes.exists_artifact? he⟩
  · intro hc id r hr
    obtain ⟨h, hh⟩ := hc.exists_history ⟨[], Tables.holds_empty⟩
    exact hh.wrapped hr

end Ledger

namespace Sample

/-- A signed transaction, trailed by fields that are not signed, and one that extends it. -/
def trailing : List LedgerCall :=
  [.submit entities .none (.ofBytes ((signed ⟨.ofNat 16 4⟩ .nil).raw ++
      FieldList.written .short [Tag.transactionId.identifier (⟨.ofNat 16 6⟩ : TransactionId)])),
    submission ⟨.ofNat 16 5⟩ ⟨.ofNat 16 4⟩, .append ⟨.ofNat 16 3⟩ 0]

theorem admits_trailing : ledger.Along Ledger.Admits trailing := by
  refine ⟨List.forall_mem_nil _, List.forall_mem_nil _, ?_, trivial⟩
  intro sc hsc
  obtain rfl := List.mem_singleton.mp hsc
  refine ⟨by decide +kernel, by decide, by decide, fun head hhead => ?_, by decide +kernel⟩
  have hempty : (ledger.run (trailing.take 2)).store.tables.head? = .ok none := by decide +kernel
  have hnone : Except.ok none = Except.ok (some head) := hempty.symm.trans hhead
  cases hnone

end Sample

namespace Ledger

theorem originates_trailing : Sample.ledger.Along Admits Sample.trailing ∧
    (Sample.ledger.run Sample.trailing).store.tables.Originates
      (Sample.ledger.submissions Sample.trailing) ∧
    ∃ r, (Sample.ledger.run Sample.trailing).store.tables.transaction? ⟨.ofNat 16 4⟩ =
        .ok (some r) ∧ r.certificate = Sample.signed ⟨.ofNat 16 4⟩ .nil ∧
      (Sample.ledger.run Sample.trailing).store.tables.Wrapped r := by
  have hrun := run_originates {} rfl Sample.signer Sample.trailing
  have hrecord : (Sample.ledger.run Sample.trailing).store.tables.transaction? ⟨.ofNat 16 4⟩ =
      .ok (some ⟨⟨.ofNat 16 4⟩, ⟨.ofNat 16 3⟩, .nil, ⟨.ofNat 16 5⟩,
        Sample.signed ⟨.ofNat 16 4⟩ .nil⟩) := by
    decide +kernel
  exact ⟨Sample.admits_trailing, hrun.1, _, hrecord, rfl, hrun.2 Sample.admits_trailing _ _ hrecord⟩

end Ledger

end SignedLedger
