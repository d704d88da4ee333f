import SignedLedger.Proofs.AppendOutcome
import SignedLedger.Proofs.Journal
import SignedLedger.Proofs.TransactionBatch

/-! The verdict on a batch. An append that can be signed succeeds exactly where every certificate of
the batch reads as a new transaction that declares the latest one of its artifact. It fails for the
first certificate that does not, and for the first thing that is wrong with it. -/

namespace SignedLedger

namespace BlockSigner

/-- That the certificate of the next block is built after the head, or after a root that is built
where there is no head. -/
def Seals (s : BlockSigner) (t : Tables) (fresh : BlockId) (now : UInt64)
    (pending : List Certificate) : Prop :=
  ∃ previous u c, t.headOrRoot s now = .ok (previous, u) ∧
    s.certificate now (previous.nextHeader s.suite fresh) pending = .ok c

end BlockSigner

namespace Tables

/-- That a transaction is recorded, or stands in `done`. -/
def Knows (t : Tables) (done : List Transaction) (id : TransactionId) : Prop :=
  (∃ r, t.transaction? id = .ok (some r)) ∨ id ∈ done.map Transaction.id

/-- The latest transaction of an artifact once `done` is recorded, zero where it has none. -/
def latestAfter (t : Tables) (done : List Transaction) (a : ArtifactId) : TransactionId :=
  match Transaction.lastOf done a, t.artifactState a with
  | some i, _ => i
  | none, .ok (some i) => i
  | none, _ => .nil

/-- That `x` is new after `done` and declares the latest transaction of its artifact. -/
structure Follows (t : Tables) (done : List Transaction) (x : Transaction) : Prop where
  fresh : ¬ t.Knows done x.id
  previous : x.previous = t.latestAfter done x.artifact

/-- That the certificates read as the transactions, each of which follows those before it. -/
structure Accepts (t : Tables) (pending : List Certificate) (xs : List Transaction) : Prop where
  reads : pending.map Transaction.parse = xs.map .ok
  follows : ∀ n x, xs[n]? = some x → t.Follows (xs.take n) x

/-- What is first wrong with a certificate after `done`. -/
inductive Offends (t : Tables) (done : List Transaction) (c : Certificate) : StoreError → Prop
  | unreadable {cause : AttestationError} (h : Transaction.parse c = .error cause) :
    Offends t done c (.invalidTransaction cause)
  | duplicate {x : Transaction} (h : Transaction.parse c = .ok x) (hid : t.Knows done x.id) :
    Offends t done c (.duplicateTransaction x.id)
  | missing {x : Transaction} (h : Transaction.parse c = .ok x) (hid : ¬ t.Knows done x.id)
    (hne : x.previous ≠ .nil) (hp : ¬ t.Knows done x.previous) :
    Offends t done c (.missingPrevious x.id x.previous)
  | conflict {x : Transaction} (h : Transaction.parse c = .ok x) (hid : ¬ t.Knows done x.id)
    (hp : x.previous = .nil ∨ t.Knows done x.previous)
    (hl : t.latestAfter done x.artifact ≠ x.previous) :
    Offends t done c
      (.artifactConflict x.artifact (t.latestAfter done x.artifact) x.previous)

/-- That the first certificate which cannot follow those before it is refused with `e`. -/
def Refuses (t : Tables) (pending : List Certificate) (e : StoreError) : Prop :=
  ∃ before c after done, pending = before ++ c :: after ∧ t.Accepts before done ∧ t.Offends done c e

/-- That a batch is appended where it is accepted, and is refused otherwise. A transaction that
follows never lacks the one that it declares. -/
structure Judges (t : Tables) (pending : List Certificate) (result : Except StoreError Block) :
    Prop where
  success : (∃ b, result = .ok b) ↔ ∃ xs, t.Accepts pending xs
  failure : ∀ e, result = .error e ↔ t.Refuses pending e
  declared : ∀ done x, t.Follows done x → x.previous = .nil ∨ t.Knows done x.previous

variable {t u : Tables} {log : TransactionLog} {s : BlockSigner} {fresh block : BlockId}
variable {now : UInt64} {pending : List Certificate} {done xs : List Transaction} {x : Transaction}
variable {c : Certificate} {e : StoreError} {id : TransactionId} {a : ArtifactId}

namespace Indexes

theorem not_knows_iff (h : t.Indexes log) (block : BlockId) :
    ¬ t.Knows done id ↔
      TransactionLog.found? (log ++ done.map (LogEntry.mk block)) id = none := by
  have hnone : log.transaction? id = none ↔ log.found? id = none := by
    simp [TransactionLog.transaction?]
  rw [TransactionLog.found?_append_map_eq_none_iff, Knows, h.transaction?, not_or, ← hnone]
  simp [Option.eq_none_iff_forall_ne_some]

theorem latestAfter_eq (h : t.Indexes log) (block : BlockId) (done : List Transaction)
    (a : ArtifactId) :
    t.latestAfter done a = TransactionLog.latest (log ++ done.map (LogEntry.mk block)) a := by
  rw [TransactionLog.latest_append_map, TransactionLog.latest_eq, latestAfter, artifactState,
    h.artifact?]
  cases Transaction.lastOf done a <;> cases log.artifact? a <;> rfl

theorem follows_iff (h : t.Indexes log) (block : BlockId) :
    t.Follows done x ↔ TransactionLog.Extends (log ++ done.map (LogEntry.mk block)) x := by
  constructor
  · rintro ⟨hid, hp⟩
    rw [h.latestAfter_eq block] at hp
    exact TransactionLog.extends_of_latest ((h.not_knows_iff block).mp hid) hp.symm
  · intro he
    exact ⟨(h.not_knows_iff block).mpr he.fresh, by rw [h.latestAfter_eq block, he.latest]⟩

theorem accepts_iff (h : t.Indexes log) (block : BlockId) :
    t.Accepts pending xs ↔
      pending.map Transaction.parse = xs.map .ok ∧ log.ExtendsAll block xs := by
  constructor
  · rintro ⟨hread, hall⟩
    exact ⟨hread, fun n x hx => (h.follows_iff block).mp (hall n x hx)⟩
  · rintro ⟨hread, hall⟩
    exact ⟨hread, fun n x hx => (h.follows_iff block).mpr (hall n x hx)⟩

theorem offends_iff (h : t.Indexes log) (block : BlockId) :
    t.Offends done c e ↔
      TransactionLog.recordCertificate block (log ++ done.map (LogEntry.mk block)) c =
        .error e := by
  have hnew : ∀ i, ¬ t.Knows done i ↔
      TransactionLog.found? (log ++ done.map (LogEntry.mk block)) i = none :=
    fun i => h.not_knows_iff block
  have hknows : ∀ i, t.Knows done i ↔
      TransactionLog.found? (log ++ done.map (LogEntry.mk block)) i ≠ none :=
    fun i => by rw [← not_iff_not, hnew, not_not]
  rw [TransactionLog.recordCertificate_eq_error_iff]
  simp only [TransactionLog.record_eq_error_iff, ← hnew, ← hknows, ← h.latestAfter_eq block]
  constructor
  · intro ho
    cases ho with
    | unreadable hx => exact .inl ⟨_, hx, rfl⟩
    | duplicate hx hid => exact .inr ⟨_, hx, .inl ⟨hid, rfl⟩⟩
    | missing hx hid hne hp => exact .inr ⟨_, hx, .inr (.inl ⟨hid, ⟨hne, hp⟩, rfl⟩)⟩
    | conflict hx hid hp hl => exact .inr ⟨_, hx, .inr (.inr ⟨hid, hp, hl, rfl⟩)⟩
  · rintro (⟨_, hx, rfl⟩ | ⟨x, hx, ⟨hid, rfl⟩ | ⟨hid, ⟨hne, hp⟩, rfl⟩ | ⟨hid, hp, hl, rfl⟩⟩)
    · exact .unreadable hx
    · exact .duplicate hx hid
    · exact .missing hx hid hne hp
    · exact .conflict hx hid hp hl

theorem refuses_iff (h : t.Indexes log) (block : BlockId) :
    t.Refuses pending e ↔ log.recordAll block pending = .error e := by
  simp only [Refuses, TransactionLog.recordAll_eq_error_iff, h.accepts_iff block,
    h.offends_iff block, and_assoc]

theorem declared_of_follows (h : t.Indexes log) (hx : t.Follows done x) :
    x.previous = .nil ∨ t.Knows done x.previous := by
  by_contra hnot
  obtain ⟨hne, hunknown⟩ := not_or.mp hnot
  have he := (h.follows_iff .root).mp hx
  exact he.previous hne ((h.not_knows_iff .root).mp hunknown)

/-- Once its block can be signed, a batch is appended as it is recorded in the log. -/
theorem append_eq (h : t.Indexes log) (hs : s.Seals t fresh now pending) :
    ∃ b, (append s fresh now pending t).map Prod.fst =
      (log.recordAll fresh pending).map fun _ => b := by
  obtain ⟨previous, v, c, hp, hc⟩ := hs
  have hsmall : ∀ d ∈ pending, d.visible < 2 ^ 64 := fun d hd =>
    Nat.lt_of_le_of_lt ((BlockSigner.certifies_of_certificate hc).visible_le hd) (by decide)
  have hr := (headOrRoot_indexes h hp).recordAll fresh hsmall
  have hheader : s.certificate now ⟨fresh, previous.id, previous.certificate.digest s.suite,
      previous.height + 1⟩ pending = .ok c := hc
  refine ⟨(previous.nextHeader s.suite fresh).block c, ?_⟩
  simp only [append, hp, ok_bind, hheader, mapError_ok]
  generalize log.recordAll fresh pending = r at hr ⊢
  generalize v.recordAll fresh pending = r' at hr ⊢
  cases hr <;> rfl

theorem judges_append (h : t.Indexes log) (hs : s.Seals t fresh now pending) :
    t.Judges pending ((append s fresh now pending t).map Prod.fst) := by
  obtain ⟨b, hb⟩ := h.append_eq hs
  rw [hb]
  refine ⟨?_, fun e => ?_, fun _ _ hx => h.declared_of_follows hx⟩
  · simp only [h.accepts_iff fresh]
    constructor
    · rintro ⟨_, hok⟩
      obtain ⟨more, hmore, _⟩ := map_eq_ok_iff.mp hok
      obtain ⟨xs, hread, hall, _⟩ := TransactionLog.recordAll_eq_ok_iff.mp hmore
      exact ⟨xs, hread, hall⟩
    · rintro ⟨xs, hread, hall⟩
      exact ⟨b, by rw [TransactionLog.recordAll_eq_ok_iff.mpr ⟨xs, hread, hall, rfl⟩, map_ok]⟩
  · rw [h.refuses_iff fresh]
    cases log.recordAll fresh pending <;> simp

end Indexes

end Tables

namespace BlockSigner

/-- A signer that signs every message seals what fits. -/
theorem Signs.seals {s : BlockSigner} {t : Tables} {pending : List Certificate} (hs : s.Signs)
    (hf : s.Fits pending) (ht : t.ReadsHead) (fresh : BlockId) (now : UInt64) :
    s.Seals t fresh now pending := by
  obtain ⟨head, hhead⟩ := ht
  cases head with
  | some head =>
    obtain ⟨c, hc⟩ := hs.exists_certificate hf now (head.nextHeader s.suite fresh)
    exact ⟨head, t, c, by simp [Tables.headOrRoot, hhead], hc⟩
  | none =>
    obtain ⟨root, hroot⟩ := hs.exists_certificate (hf.mono (List.nil_subset _)) now .root
    obtain ⟨c, hc⟩ := hs.exists_certificate hf now
      ((BlockHeader.root.block root).nextHeader s.suite fresh)
    have hheader : s.certificate now ⟨.root, .nil, .zero 32, 0⟩ [] = .ok root := hroot
    let stored := t.putBlock (BlockHeader.root.block root)
    let opened := stored.putHeight 0 (BlockHeader.root.block root).id
    refine ⟨BlockHeader.root.block root, opened.putHead (BlockHeader.root.block root), c, ?_, hc⟩
    simp only [Tables.headOrRoot, hhead, ok_bind, Tables.createRoot, hheader, mapError_ok]
    rfl

end BlockSigner

namespace Store

/-- After every run, an append that can be signed is decided by the batch alone. -/
theorem run_judges (signer : BlockSigner) (earlier : List StoreCall) (fresh : BlockId) (now : UInt64)
    (pending : List Certificate)
    (hs : signer.Seals ((start signer).run earlier).tables fresh now pending) :
    ((start signer).run earlier).tables.Judges pending
      (((start signer).run earlier).append fresh now pending).1 := by
  have hresult : (((start signer).run earlier).append fresh now pending).1 =
      (Tables.append signer fresh now pending ((start signer).run earlier).tables).map Prod.fst := by
    have hsigner : ((start signer).run earlier).signer = signer := run_signer ..
    rw [append, write, hsigner]
    cases Tables.append signer fresh now pending ((start signer).run earlier).tables <;> rfl
  rw [hresult]
  exact (run_start_indexes signer earlier).judges_append hs

theorem judges_restarting :
    Sample.signer.Seals (start Sample.signer).tables ⟨.ofNat 16 3⟩ 0
        ([Sample.starting ⟨.ofNat 16 4⟩, Sample.starting ⟨.ofNat 16 5⟩].map Transaction.certificate) ∧
    (start Sample.signer).tables.Refuses
      ([Sample.starting ⟨.ofNat 16 4⟩, Sample.starting ⟨.ofNat 16 5⟩].map Transaction.certificate)
      (.artifactConflict Sample.artifact ⟨.ofNat 16 4⟩ .nil) := by
  have hseals : Sample.signer.Seals (start Sample.signer).tables ⟨.ofNat 16 3⟩ 0
      ([Sample.starting ⟨.ofNat 16 4⟩, Sample.starting ⟨.ofNat 16 5⟩].map
        Transaction.certificate) :=
    Sample.signs_signer.seals ⟨by decide, by decide +kernel⟩ ⟨none, by decide +kernel⟩ _ _
  have hjudges := run_judges Sample.signer [] ⟨.ofNat 16 3⟩ 0 _ hseals
  exact ⟨hseals, (hjudges.failure _).mp (by decide +kernel)⟩

end Store

end SignedLedger
