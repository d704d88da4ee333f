import Mathlib.Data.List.Count
import SignedLedger.Proofs.Journal

/-! Double spending. Two transactions of an artifact never extend the same transaction. They may
still both start the artifact: the zero identifier stands for the absence of a transaction, and once
the last transaction of an artifact is the one with the zero identifier, the artifact looks as if it
had none. -/

namespace SignedLedger

namespace TransactionLog

variable {log : TransactionLog} {a : ArtifactId} {p : TransactionId}

theorem Valid.nodup_of (h : log.Valid) (a : ArtifactId) : ((log.of a).map LogEntry.id).Nodup :=
  h.nodup.sublist (List.filter_sublist.map LogEntry.id)

theorem Valid.count_id_le_one (h : log.Valid) (a : ArtifactId) (p : TransactionId) :
    ((log.of a).map LogEntry.id).count p ≤ 1 :=
  List.nodup_iff_count_le_one.mp (h.nodup_of a) p

theorem Valid.count_previous (h : log.Valid) (a : ArtifactId) (p : TransactionId) :
    ((log.of a).map LogEntry.previous).count p + (if log.latest a = p then 1 else 0) =
      ((log.of a).map LogEntry.id).count p + (if p = .nil then 1 else 0) := by
  have hc := congrArg (List.count p) (h.map_previous_of a)
  rw [List.count_append, List.count_singleton, List.count_cons] at hc
  simp only [beq_iff_eq] at hc
  rw [hc]
  by_cases hp : p = .nil
  · rw [if_pos hp, if_pos hp.symm]
  · rw [if_neg hp, if_neg (Ne.symm hp)]

theorem Valid.eq_iff_count_le_one (h : log.Valid) :
    (∀ e ∈ log.of a, ∀ f ∈ log.of a, e.previous = p → f.previous = p → e = f) ↔
      ((log.of a).map LogEntry.previous).count p ≤ 1 := by
  have hn : ((log.of a).filter fun e => e.previous = p).Nodup :=
    (h.nodup_of a).of_map.filter _
  have hcount : ((log.of a).map LogEntry.previous).count p =
      ((log.of a).filter fun e => e.previous = p).length := by
    rw [List.count, List.countP_map, List.countP_eq_length_filter]
    congr 2
  have hmem : (∀ e ∈ log.of a, ∀ f ∈ log.of a, e.previous = p → f.previous = p → e = f) ↔
      ∀ e ∈ (log.of a).filter fun e => e.previous = p,
        ∀ f ∈ (log.of a).filter fun e => e.previous = p, e = f := by
    simp only [List.mem_filter, decide_eq_true_eq, and_imp]
    exact ⟨fun hh e he hp f hf hq => hh e he f hf hp hq,
      fun hh e he f hf hp hq => hh e he hp f hf hq⟩
  rw [hmem, hcount]
  generalize (log.of a).filter (fun e => e.previous = p) = es at hn ⊢
  rcases es with _ | ⟨e, _ | ⟨f, rest⟩⟩
  · simp
  · simp
  · simp only [List.length_cons, Nat.reduceLeDiff, iff_false, not_forall]
    refine ⟨e, by simp, f, by simp, ?_⟩
    rintro rfl
    simp at hn

/-- A transaction is declared twice on an artifact only where it is none, which takes a transaction
with the zero identifier that is not the latest one. -/
theorem Valid.eq_iff (h : log.Valid) :
    (∀ e ∈ log.of a, ∀ f ∈ log.of a, e.previous = p → f.previous = p → e = f) ↔
      (p = .nil → .nil ∈ (log.of a).map LogEntry.id → log.latest a = .nil) := by
  have hc := h.count_previous a p
  have hid := h.count_id_le_one a p
  rw [h.eq_iff_count_le_one]
  -- The two sides of the count differ only where `p` is zero or the latest transaction.
  constructor
  · rintro hle rfl hm
    have hpos := List.count_pos_iff.mpr hm
    by_contra hl
    simp only [if_neg hl, if_true] at hc
    omega
  · intro hh
    by_cases hp : p = .nil
    · by_cases hm : .nil ∈ (log.of a).map LogEntry.id
      · rw [if_pos (hp ▸ hh hp hm), if_pos hp] at hc
        omega
      · rw [if_pos hp, hp, List.count_eq_zero_of_not_mem hm] at hc
        rw [hp]
        omega
    · rw [if_neg hp] at hc
      omega

end TransactionLog

/-- That `r` is a transaction of artifact `a`. -/
def RecordedTransaction.Moves (r : RecordedTransaction) (a : ArtifactId) : Prop :=
  ∃ x, Transaction.parse r.certificate = .ok x ∧ x.artifact = a

theorem TransactionLog.Parsed.moves_iff {log : TransactionLog} (hp : log.Parsed) {e : LogEntry}
    (he : e ∈ log) (a : ArtifactId) (next : TransactionId) :
    (e.recorded next).Moves a ↔ e ∈ log.of a := by
  have hread : Transaction.parse (e.recorded next).certificate = .ok e.transaction.shown :=
    Transaction.parse_certificate_shown (hp e he)
  simp [RecordedTransaction.Moves, hread, Transaction.shown, mem_of_iff, he, LogEntry.artifact]

namespace Tables

variable {t : Tables} {log : TransactionLog} {a : ArtifactId} {p : TransactionId}

/-- At most one recorded transaction of artifact `a` declares `p` as the one before it. -/
def ExtendedOnce (t : Tables) (a : ArtifactId) (p : TransactionId) : Prop :=
  ∀ i j x y, t.transaction? i = .ok (some x) → t.transaction? j = .ok (some y) →
    x.Moves a → y.Moves a → x.previous = p → y.previous = p → i = j

/-- That a transaction with the zero identifier, if `a` has one, is its latest one. -/
def NilLatest (t : Tables) (a : ArtifactId) : Prop :=
  ∀ x, t.transaction? .nil = .ok (some x) → x.Moves a →
    ∃ r, t.artifact? a = .ok (some r) ∧ r.last = .nil

theorem Indexes.extendedOnce_iff (h : t.Indexes log) (hp : log.Parsed) :
    t.ExtendedOnce a p ↔
      ∀ e ∈ log.of a, ∀ f ∈ log.of a, e.previous = p → f.previous = p → e = f := by
  constructor
  · intro hh e he f hf hep hfp
    have hem := (TransactionLog.mem_of_iff.mp he).1
    have hfm := (TransactionLog.mem_of_iff.mp hf).1
    have hx := h.transaction?_eq_some_iff.mpr ⟨e, hem, rfl, rfl⟩
    have hy := h.transaction?_eq_some_iff.mpr ⟨f, hfm, rfl, rfl⟩
    have hxa := (hp.moves_iff hem a (log.next e.id)).mpr he
    have hya := (hp.moves_iff hfm a (log.next f.id)).mpr hf
    have hid : e.id = f.id := hh e.id f.id _ _ hx hy hxa hya hep hfp
    exact List.inj_on_of_nodup_map h.valid.nodup hem hfm hid
  · intro hh i j x y hx hy hxa hya hxp hyp
    obtain ⟨e, he, rfl, rfl⟩ := h.transaction?_eq_some_iff.mp hx
    obtain ⟨f, hf, rfl, rfl⟩ := h.transaction?_eq_some_iff.mp hy
    have hea := (hp.moves_iff he a _).mp hxa
    have hfa := (hp.moves_iff hf a _).mp hya
    rw [hh e hea f hfa hxp hyp]

theorem Indexes.nilLatest_iff (h : t.Indexes log) (hp : log.Parsed) :
    t.NilLatest a ↔ (.nil ∈ (log.of a).map LogEntry.id → log.latest a = .nil) := by
  constructor
  · intro hh hm
    obtain ⟨e, he, hid⟩ := List.mem_map.mp hm
    have hm := (TransactionLog.mem_of_iff.mp he).1
    have hx := h.transaction?_eq_some_iff.mpr ⟨e, hm, hid, rfl⟩
    obtain ⟨r, hr, hlast⟩ := hh _ hx ((hp.moves_iff hm a _).mpr he)
    rw [h.artifact?, Except.ok.injEq] at hr
    rw [TransactionLog.latest_eq, hr]
    exact hlast
  · intro hh x hx hxa
    obtain ⟨e, he, hid, rfl⟩ := h.transaction?_eq_some_iff.mp hx
    have hea := (hp.moves_iff he a _).mp hxa
    have hlatest := hh (List.mem_map.mpr ⟨e, hea, hid⟩)
    have hne : log.artifact? a ≠ none := by
      intro hn
      simp [TransactionLog.artifact?_eq_none_iff.mp hn] at hea
    obtain ⟨r, hr⟩ := Option.ne_none_iff_exists'.mp hne
    rw [TransactionLog.latest_eq, hr] at hlatest
    exact ⟨r, by rw [h.artifact?, hr], hlatest⟩

end Tables

namespace Store

/-- After every run, whatever is appended, at most one transaction of an artifact extends `p`,
except where `p` is the zero identifier and the artifact has moved on from a transaction of that
identifier. -/
theorem extendedOnce_run_iff (signer : BlockSigner) (calls : List StoreCall) (a : ArtifactId)
    (p : TransactionId) :
    ((start signer).run calls).tables.ExtendedOnce a p ↔
      (p = .nil → ((start signer).run calls).tables.NilLatest a) := by
  have h := run_start_indexes signer calls
  have hp := journal_parsed (start signer) calls
  rw [h.extendedOnce_iff hp, h.valid.eq_iff, h.nilLatest_iff hp]

/-- Two transactions that start the same artifact, the first one with the zero identifier. -/
def restart : StoreCall :=
  Sample.appending ⟨.ofNat 16 3⟩ [Sample.starting .nil, Sample.starting ⟨.ofNat 16 4⟩]

theorem not_extendedOnce_restart :
    ¬ ((start Sample.signer).run [restart]).tables.ExtendedOnce Sample.artifact .nil := by
  intro h
  have hrecorded : ∀ x ∈ [Sample.starting .nil, Sample.starting ⟨.ofNat 16 4⟩],
      ((start Sample.signer).run [restart]).tables.transaction? x.id =
        .ok (some ⟨x.id, ⟨.ofNat 16 3⟩, .nil, .nil, x.certificate⟩) ∧
          Transaction.parse x.certificate = .ok x := by
    decide +kernel
  obtain ⟨hx, hxp⟩ := hrecorded (Sample.starting .nil) (by simp)
  obtain ⟨hy, hyp⟩ := hrecorded (Sample.starting ⟨.ofNat 16 4⟩) (by simp)
  have hid := h _ _ _ _ hx hy ⟨_, hxp, rfl⟩ ⟨_, hyp, rfl⟩ rfl rfl
  exact absurd hid (by decide)

end Store

end SignedLedger
