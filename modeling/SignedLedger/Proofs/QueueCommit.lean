import SignedLedger.Proofs.DraftedTransaction
import SignedLedger.Proofs.PendingQueue

/-! Committing the queue. What was validated on submission is never refused by the store, so that an
append commits the whole queue wherever the certificate of its block can be built. A submission may be
too large for that: its fields fit their headers one by one, but all of it has to fit one field of the
block. -/

namespace SignedLedger

/-- Whether the error is about a transaction that is to be recorded. -/
def StoreError.isRefusal : StoreError → Bool
  | invalidTransaction _ | duplicateTransaction _ | missingPrevious .. | artifactConflict .. => true
  | _ => false

namespace Ledger

/-- The size of a block that is appended fits the eight bytes for it in its record. -/
def Fits (l : Ledger) : LedgerCall → Prop
  | .append _ _ => l.store.signer.expectedSize l.waiting < 2 ^ 64
  | .submit .. => True
  | .discard => True
  | .ensureRoot _ => True

instance (l : Ledger) (c : LedgerCall) : Decidable (l.Fits c) :=
  match c with
  | .append _ _ => inferInstanceAs (Decidable (l.store.signer.expectedSize l.waiting < 2 ^ 64))
  | .submit .. => .isTrue trivial
  | .discard => .isTrue trivial
  | .ensureRoot _ => .isTrue trivial

def Accepted (l : Ledger) : Prop :=
  ∀ fresh now e, (l.append fresh now).1 = .error (.store e) → e.isRefusal = false

/-- That an append fails only where the certificate of a block is not built; and that, where the signer
signs everything, it commits the queue if the sizes fit, and names one that does not otherwise. -/
structure Commits (l : Ledger) : Prop where
  failure : ∀ fresh now e, (l.append fresh now).1 = .error e →
    ∃ cause, e = .store (.certificate cause)
  success : l.store.signer.Signs → ∀ fresh now,
    (∃ b, (l.append fresh now).1 = .ok b ∧ (l.append fresh now).2.queue = []) ↔
      l.store.signer.Fits l.waiting
  tooLarge : l.store.signer.Signs → ∀ fresh now e, (l.append fresh now).1 = .error e →
    ∃ n ∈ l.store.signer.sizes l.waiting, HeaderWidth.short.maxValue < n ∧
      e = .store (.certificate (.codec (.valueTooLarge n)))

variable {l : Ledger} {log : TransactionLog} {c : LedgerCall} {fresh : BlockId} {now : UInt64}
variable {e : LedgerError}

theorem Queues.append_eq_error (h : l.Queues log) (hv : l.config.validateOnSubmit = true)
    (ha : (l.append fresh now).1 = .error e) :
    ∃ cause, e = .store cause ∧ (l.store.tables.head? = .error cause ∨
      Tables.Uncertified l.store.signer now l.waiting cause) := by
  rcases l.append_cases fresh now with ⟨cause, ht, hl⟩ | ⟨_, _, _, hl⟩
  · rw [hl] at ha
    cases ha
    exact ⟨cause, rfl, h.indexes.append_eq_error h.parsed (h.valid hv fresh) ht⟩
  · rw [hl] at ha
    cases ha

theorem Queues.accepted (h : l.Queues log) (hv : l.config.validateOnSubmit = true) :
    l.Accepted := by
  intro fresh now e he
  obtain ⟨cause, hcause, hhead | ⟨_, _, _, _, _, rfl⟩⟩ := h.append_eq_error hv he
  · obtain ⟨fault, rfl⟩ := Tables.head?_eq_error hhead
    cases hcause
    rfl
  · cases hcause
    rfl

theorem Queues.commits (h : l.Queues log) (hv : l.config.validateOnSubmit = true)
    (hr : l.store.tables.ReadsHead) : l.Commits := by
  obtain ⟨head, hhead⟩ := hr
  have herror : ∀ fresh now e, (l.append fresh now).1 = .error e →
      ∃ cause, e = .store cause ∧ Tables.Uncertified l.store.signer now l.waiting cause := by
    intro fresh now e he
    obtain ⟨cause, hcause, hfail | hc⟩ := h.append_eq_error hv he
    · rw [hhead] at hfail
      cases hfail
    · exact ⟨cause, hcause, hc⟩
  refine ⟨?failure, ?success, ?tooLarge⟩
  case failure =>
    intro fresh now e he
    obtain ⟨_, rfl, _, _, cause, _, _, rfl⟩ := herror fresh now e he
    exact ⟨cause, rfl⟩
  case success =>
    intro hs fresh now
    constructor
    · rintro ⟨b, hb, _⟩
      rcases l.append_cases fresh now with ⟨_, _, hl⟩ | ⟨_, _, ht, _⟩
      · rw [hl] at hb
        cases hb
      · obtain ⟨_, _, _, c, _, hc, _, _, _⟩ := Tables.append_eq_ok ht
        exact hc.fits
    · intro hf
      rcases l.append_cases fresh now with ⟨_, _, hl⟩ | ⟨b, _, _, hl⟩
      · obtain ⟨_, _, hc⟩ := herror fresh now _ (congrArg Prod.fst hl)
        exact absurd hf (hc.not_fits hs)
      · rw [hl]
        exact ⟨b, rfl, rfl⟩
  case tooLarge =>
    intro hs fresh now e he
    obtain ⟨_, rfl, hc⟩ := herror fresh now e he
    obtain ⟨n, hn, hlarge, rfl⟩ := hc.tooLarge hs
    exact ⟨n, hn, hlarge, rfl⟩

/-- Where a size does not fit, an append fails on such a size and leaves the ledger as it was. -/
theorem Commits.append_eq (h : l.Commits) (hs : l.store.signer.Signs)
    (hf : ¬ l.store.signer.Fits l.waiting) (fresh : BlockId) (now : UInt64) :
    ∃ n ∈ l.store.signer.sizes l.waiting, HeaderWidth.short.maxValue < n ∧
      l.append fresh now = (.error (.store (.certificate (.codec (.valueTooLarge n)))), l) := by
  rcases l.append_cases fresh now with ⟨cause, _, hl⟩ | ⟨b, _, _, hl⟩
  · obtain ⟨n, hn, hlarge, he⟩ := h.tooLarge hs fresh now _ (congrArg Prod.fst hl)
    refine ⟨n, hn, hlarge, ?_⟩
    rw [hl, he]
  · have hcommits : ∃ b, (l.append fresh now).1 = .ok b ∧ (l.append fresh now).2.queue = [] := by
      rw [hl]
      exact ⟨b, rfl, rfl⟩
    exact absurd ((h.success hs fresh now).mp hcommits) hf

theorem appendSigning_eq (hs : l.store.signer.Signs) (fresh : BlockId) (now : UInt64) :
    l.appendSigning fresh now = l.append fresh now := by
  unfold appendSigning
  split
  · rename_i hhead
    dsimp only
    split
    · rename_i hlarge
      have herror : Tables.append l.store.signer fresh now l.waiting l.store.tables =
          .error (.certificate (.codec (.valueTooLarge l.store.signer.suite.signatureSize))) :=
        Tables.append_of_overlong hs hlarge hhead
      rcases l.append_cases fresh now with ⟨_, ht, hl⟩ | ⟨_, _, ht, _⟩
      · rw [herror] at ht
        cases ht
        exact hl.symm
      · rw [herror] at ht
        cases ht
    · rfl
  · rfl

theorem call_readsHead (h : l.store.tables.ReadsHead) (hc : l.Fits c) :
    (l.call c).store.tables.ReadsHead := by
  rw [call_store]
  cases c with
  | submit => exact h
  | append fresh now =>
    refine Store.call_induction (P := Tables.ReadsHead) h ?_ ?_
    · intro _ _ _ b t heq ht
      cases heq
      exact Tables.readsHead_append ht hc
    · intro _ _ _ heq
      cases heq
  | discard => exact h
  | ensureRoot now =>
    refine Store.call_induction (P := Tables.ReadsHead) h ?_ ?_
    · intro _ _ _ _ _ heq
      cases heq
    · intro _ b t _ ht
      exact h.ensureRoot ht

/-- Whatever is called, a queue that was validated on submission is never refused, and it is
committed where the block that wraps it can be signed and written. -/
theorem run_commits (config : LedgerConfig) (hv : config.validateOnSubmit = true) {store : Store}
    (hs : store.Reachable) (calls : List LedgerCall) :
    ((start config store).run calls).Accepted ∧
      ((start config store).Along Fits calls → ((start config store).run calls).Commits) := by
  obtain ⟨h, hh⟩ := hs.exists_history
  have hstart := queues_start config hh.indexes
  have hvalidates : ((start config store).run calls).config.validateOnSubmit = true := by
    rw [run_config]
    exact hv
  obtain ⟨log, hq⟩ := hstart.run calls
  refine ⟨hq.accepted hvalidates, fun hc => hq.commits hvalidates ?_⟩
  exact hc.run (I := fun l => l.store.tables.ReadsHead) ⟨_, hh.head?⟩ fun _ _ => call_readsHead

end Ledger

/-! Submissions to try statements on. -/

namespace Sample

def submission (id previous : TransactionId) : LedgerCall :=
  .submit entities .none (signed id previous)

/-- Two transactions are discarded and submitted again, and are then followed by a third one. -/
def resubmitting : List LedgerCall :=
  [submission ⟨.ofNat 16 4⟩ .nil, submission ⟨.ofNat 16 5⟩ ⟨.ofNat 16 4⟩, .discard,
    submission ⟨.ofNat 16 4⟩ .nil, .append ⟨.ofNat 16 3⟩ 0,
    submission ⟨.ofNat 16 5⟩ ⟨.ofNat 16 4⟩, submission ⟨.ofNat 16 7⟩ ⟨.ofNat 16 5⟩]

def ledger : Ledger :=
  .start {} (.start signer)

end Sample

namespace Ledger

theorem commits_resubmitting : Sample.ledger.Along Fits Sample.resubmitting ∧
    (Sample.ledger.run Sample.resubmitting).queue.map Transaction.id =
      [⟨.ofNat 16 5⟩, ⟨.ofNat 16 7⟩] ∧
    (Sample.ledger.run Sample.resubmitting).Accepted ∧
    ∃ b, ((Sample.ledger.run Sample.resubmitting).append ⟨.ofNat 16 6⟩ 0).1 = .ok b ∧
      ((Sample.ledger.run Sample.resubmitting).append ⟨.ofNat 16 6⟩ 0).2.queue = [] := by
  have hfits : Sample.ledger.Along Fits Sample.resubmitting := by decide +kernel
  have hrun : (Sample.ledger.run Sample.resubmitting).Accepted ∧
      (Sample.ledger.Along Fits Sample.resubmitting →
        (Sample.ledger.run Sample.resubmitting).Commits) :=
    run_commits {} rfl (.start Sample.signer) Sample.resubmitting
  have hsigner : (Sample.ledger.run Sample.resubmitting).store.signer = Sample.signer :=
    run_signer ..
  have hsizes : Sample.signer.Fits (Sample.ledger.run Sample.resubmitting).waiting :=
    ⟨by decide, by decide +kernel⟩
  refine ⟨hfits, by decide +kernel, hrun.1, ((hrun.2 hfits).success ?_ _ _).mpr ?_⟩
  · rw [hsigner]
    exact Sample.signs_signer
  · rw [hsigner]
    exact hsizes

end Ledger

/-! What no block can hold is accepted all the same. -/

namespace TransactionDraft

variable {d : TransactionDraft} {s : Submission} {now height : UInt64} {signer : EntityId}
variable {signature : Bytes} {n : Nat}

/-- What is drafted is accepted once it is attested, whatever its size. -/
theorem Sealed.outcome (h : d.Sealed s.ledger.store.suite now signer signature s.certificate)
    (ho : s.Open ⟨s.certificate, d.type, d.id, d.artifact, d.previous⟩)
    (hh : s.ledger.headHeight = .ok height)
    (ha : s.certificate.attestation s.ledger.store.suite s.resolvers (s.options height) =
      .ok ⟨signer, s.certificate.raw.length, n⟩) :
    s.outcome = .ok (d.id, ⟨s.certificate, d.type, d.id, d.artifact, d.previous⟩) := by
  refine Submission.outcome_eq_ok_iff.mpr ⟨_, ho, rfl, ?_⟩
  unfold Submission.Keeps
  split
  · refine ⟨height, _, hh, ha, ?_⟩
    rw [h.narrow_eq]
    exact ho.reads
  · rfl

end TransactionDraft

namespace Sample

/-- A transaction with a value that just fits its field. -/
def oversized : TransactionDraft :=
  { type := ⟨0x0100⟩
    id := ⟨.ofNat 16 4⟩
    artifact
    fields := [(⟨0x0400⟩, List.replicate HeaderWidth.short.maxValue 0)] }

theorem applies_oversized : oversized.Applies := by
  intro f hf
  rw [List.mem_singleton.mp hf]
  rfl

theorem fits_oversized : oversized.Fits signer.suite where
  fields := by
    intro f hf
    rw [List.mem_singleton.mp hf]
    exact Nat.le_of_eq List.length_replicate
  chain := nofun
  signature := by decide

/-- A signer whose signatures are a byte too long for a field. -/
def longhand : BlockSigner :=
  ⟨.checksum 1 (2 ^ 32) (2 ^ 32), ⟨.ofNat 16 8⟩, [9]⟩

theorem signs_longhand : longhand.Signs := by
  intro message
  have hpairs : longhand.suite.Pairs [9] [9] := Suite.checksum_pairs (by decide)
  obtain ⟨signature, hsign, hsize, _⟩ := hpairs.signs message
  exact ⟨signature, hsign, hsize⟩

theorem exists_oversized : ∃ c, oversized.sign signer.suite 0 author [9] = .ok c ∧
    HeaderWidth.short.maxValue < c.visible ∧
    ledger.accept entities .none c = .ok (oversized.id, ⟨c, ⟨0x0100⟩, oversized.id, artifact, .nil⟩) := by
  have hpairs : signer.suite.Pairs [9] [9] := Suite.checksum_pairs (by decide)
  obtain ⟨signature, c, hsign, hsealed, hverify⟩ := fits_oversized.exists_sealed hpairs 0 author
  have hlarge := hsealed.length_lt_visible List.mem_cons_self
  rw [List.length_replicate] at hlarge
  have hroom : ledger.queue.length < ledger.config.maxPending := by decide
  have hpending : ledger.statuses.get? oversized.id ≠ some .pending := by decide
  have hopen : (Submission.mk ledger entities .none c).Open
      ⟨c, ⟨0x0100⟩, oversized.id, artifact, .nil⟩ :=
    ⟨(hsealed.readsAs applies_oversized).parsed, hroom, hpending, rfl⟩
  have hknown : oversized.Known { entities, artifacts := ledger.pendingState, contracts := .none } 0
      author [9] := ⟨⟨_, rfl, rfl⟩, none, rfl, rfl⟩
  have hattested := hsealed.attestation_eq applies_oversized (o := {}) rfl nofun hknown (by decide)
    hverify rfl
  exact ⟨c, hsign, hlarge, hsealed.outcome (s := ⟨ledger, entities, .none, c⟩) hopen rfl hattested⟩

end Sample

namespace Ledger

/-- What is accepted cannot always be committed: no block holds the certificate of the draft, and a
signer that writes too much signs no block at all. -/
theorem not_commits_oversized :
    (∃ c l, Sample.oversized.sign Sample.signer.suite 0 Sample.author [9] = .ok c ∧
      Sample.ledger.config.validateOnSubmit = true ∧ Sample.ledger.store.signer.Signs ∧
      Sample.ledger.submit Sample.entities .none c = (.ok Sample.oversized.id, l) ∧
      HeaderWidth.short.maxValue < c.visible ∧ ∀ fresh now, l.append fresh now =
        (.error (.store (.certificate (.codec (.valueTooLarge c.visible)))), l)) ∧
    ∃ l : Ledger, l = .start {} (.start Sample.longhand) ∧ l.store.signer.Signs ∧
      ∀ fresh now, l.append fresh now =
        (.error (.store (.certificate (.codec (.valueTooLarge (2 ^ 32))))), l) := by
  constructor
  · have hstart : Sample.ledger.Queues [] := queues_start {} Tables.indexes_empty
    obtain ⟨c, hsign, hlarge, haccept⟩ := Sample.exists_oversized
    have hsubmit : Sample.ledger.submit Sample.entities .none c =
        (.ok Sample.oversized.id, Sample.ledger.enqueue Sample.oversized.id
          ⟨c, ⟨0x0100⟩, Sample.oversized.id, Sample.artifact, .nil⟩) := by
      rw [submit, haccept]
    have hqueues := hstart.enqueue (s := ⟨Sample.ledger, Sample.entities, .none, c⟩) haccept
    have hcommits := hqueues.commits rfl ⟨none, rfl⟩
    have hfits : ¬ Sample.signer.Fits [c] := fun hf =>
      absurd (hf.wrapped c List.mem_cons_self) (Nat.not_le.mpr hlarge)
    refine ⟨c, _, hsign, rfl, Sample.signs_signer, hsubmit, hlarge, fun fresh now => ?_⟩
    obtain ⟨n, hn, hmax, happend⟩ := hcommits.append_eq Sample.signs_signer hfits fresh now
    rcases List.mem_cons.mp hn with rfl | hn
    · exact absurd hmax (Nat.not_lt.mpr Sample.fits_oversized.signature)
    · obtain rfl : n = c.visible := List.mem_singleton.mp hn
      exact happend
  · refine ⟨_, rfl, Sample.signs_longhand, fun fresh now => ?_⟩
    rw [← appendSigning_eq Sample.signs_longhand]
    rfl

end Ledger

end SignedLedger
