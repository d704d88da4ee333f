import SignedLedger.Proofs.ArtifactChain
import SignedLedger.Proofs.BlockRenaming
import SignedLedger.Proofs.QueueCommit

/-! Blocked queues. A transaction that the store refuses keeps its place in the queue, and what it is
judged against changes only when something is recorded. So every append is refused with the same error,
until the queue is discarded. -/

namespace SignedLedger

namespace Tables

/-- That `u` is `t` with one more block, which wraps no transaction and comes after the head, or after
a root where there is no head. -/
structure GainsEmpty (t u : Tables) (b : Block) : Prop where
  wraps : b.certificate.fieldsOf .wrappedTransaction = .ok []
  afterHead : ∀ head, t.head? = .ok (some head) →
    b.previous = head.id ∧ b.height = head.height + 1
  afterRoot : t.head? = .ok none → b.previous = .root ∧ b.height = 1
  transactions : u.transactions = t.transactions
  artifacts : u.artifacts = t.artifacts

variable {t u v : Tables} {log : TransactionLog} {s : BlockSigner} {fresh : BlockId} {now : UInt64}
variable {pending : List Certificate} {b previous : Block} {e : StoreError}

theorem Refuses.append (h : t.Refuses pending e) (more : List Certificate) :
    t.Refuses (pending ++ more) e := by
  obtain ⟨before, c, after, done, rfl, haccepts, hoffends⟩ := h
  refine ⟨before, c, after ++ more, done, ?_, haccepts, hoffends⟩
  rw [List.append_assoc, List.cons_append]

/-- The root that is created for a first block has no part in the verdict. -/
theorem Indexes.recordAll_eq_error_iff (h : t.Indexes log)
    (hp : headOrRoot s now t = .ok (previous, v)) (hf : s.Fits pending) (fresh : BlockId) :
    v.recordAll fresh pending = .error e ↔ t.Refuses pending e := by
  have hsmall : ∀ c ∈ pending, c.visible < 2 ^ 64 := fun c hc =>
    Nat.lt_of_le_of_lt (hf.wrapped c hc) (by decide)
  have hs := (headOrRoot_indexes h hp).recordAll fresh hsmall
  rw [h.refuses_iff fresh]
  generalize v.recordAll fresh pending = r at hs ⊢
  generalize log.recordAll fresh pending = r' at hs ⊢
  cases hs with
  | ok => simp
  | error => simp

/-- An append that is refused has found the head and has built its certificate. -/
theorem Indexes.refuses_of_append (h : t.Indexes log) (he : e.isRefusal = true)
    (ha : Tables.append s fresh now pending t = .error e) :
    t.ReadsHead ∧ s.Fits pending ∧ t.Refuses pending e := by
  rcases Tables.append_eq_error ha with hhead | ⟨_, _, _, _, _, rfl⟩ | ⟨previous, v, hp, hf, hr⟩
  · obtain ⟨_, rfl⟩ := head?_eq_error hhead
    cases he
  · cases he
  · refine ⟨?_, hf, (h.recordAll_eq_error_iff hp hf fresh).mp hr⟩
    rcases headOrRoot_eq_ok hp with ⟨hhead, _⟩ | ⟨hhead, _⟩
    · exact ⟨_, hhead⟩
    · exact ⟨_, hhead⟩

theorem Indexes.not_append (h : t.Indexes log) (hr : t.Refuses pending e) :
    Tables.append s fresh now pending t ≠ .ok (b, u) := by
  intro ha
  obtain ⟨previous, v, w, c, hp, hc, hw, _, _⟩ := append_eq_ok ha
  have herror := (h.recordAll_eq_error_iff hp hc.fits fresh).mpr hr
  rw [hw] at herror
  cases herror

theorem gainsEmpty_of_append (ha : Tables.append s fresh now [] t = .ok (b, u)) :
    t.GainsEmpty u b := by
  obtain ⟨previous, v, w, c, hp, hc, hw, rfl, rfl⟩ := append_eq_ok ha
  obtain rfl : v = w := Except.ok.inj hw
  have hwraps : c.fieldsOf .wrappedTransaction = .ok [] := by
    obtain ⟨found, hfound, hvalues⟩ := hc.wrapped_eq
    have hnil : found = [] := List.map_eq_nil_iff.mp hvalues
    rw [← hnil]
    exact hfound
  rcases headOrRoot_eq_ok hp with ⟨hsome, rfl⟩ | ⟨hnone, hroot⟩
  · refine ⟨hwraps, ?_, ?_, rfl, rfl⟩
    · intro head hhead
      rw [hsome] at hhead
      cases hhead
      exact ⟨rfl, rfl⟩
    · intro hhead
      rw [hsome] at hhead
      cases hhead
  · obtain ⟨_, _, rfl, rfl⟩ := createRoot_eq_ok hroot
    refine ⟨hwraps, ?_, fun _ => ⟨rfl, rfl⟩, rfl, rfl⟩
    intro head hhead
    rw [hnone] at hhead
    cases hhead

end Tables

namespace Ledger

/-- That the store refuses the queue with `e`, although the head can be read and an empty block would
fit. -/
structure Blocked (l : Ledger) (log : TransactionLog) (e : StoreError) : Prop where
  indexes : l.store.tables.Indexes log
  reads : l.store.tables.ReadsHead
  fits : l.store.signer.Fits []
  refuses : l.store.tables.Refuses l.waiting e

/-- That the queue stays refused with `e` whatever is called, unless it is discarded. Wherever the
waiting certificates fit a block this is the error; and once they are discarded, an empty block is
appended. -/
structure StaysBlocked (l : Ledger) (e : StoreError) : Prop where
  refused : ∀ later, (∀ c ∈ later, c ≠ .discard) → ∀ fresh now,
    (∃ cause, (l.run later).append fresh now = (.error cause, l.run later)) ∧
    (((l.run later).append fresh now).1 = .error (.store e) ↔
      l.store.signer.Fits (l.run later).waiting)
  discarded : ∀ later, (∀ c ∈ later, c ≠ .discard) → ∀ fresh now,
    ∃ b, ((l.run later).discard.2.append fresh now).1 = .ok b ∧
      (l.run later).store.tables.GainsEmpty
        ((l.run later).discard.2.append fresh now).2.store.tables b

variable {l : Ledger} {log : TransactionLog} {e : StoreError} {c : LedgerCall}
variable {later : List LedgerCall} {fresh : BlockId} {now : UInt64}

theorem append_eq_error_iff : (l.append fresh now).1 = .error (.store e) ↔
    Tables.append l.store.signer fresh now l.waiting l.store.tables = .error e := by
  rcases l.append_cases fresh now with ⟨cause, ht, ha⟩ | ⟨b, t, ht, ha⟩
  · rw [ht, ha]
    simp
  · rw [ht, ha]
    simp

namespace Blocked

theorem append_eq (h : l.Blocked log e) (fresh : BlockId) (now : UInt64) :
    ∃ cause, l.append fresh now = (.error cause, l) := by
  rcases l.append_cases fresh now with ⟨cause, _, ha⟩ | ⟨b, t, ht, _⟩
  · exact ⟨.store cause, ha⟩
  · exact absurd ht (h.indexes.not_append h.refuses)

theorem append_iff (h : l.Blocked log e) (he : e.isRefusal = true) (hs : l.store.signer.Signs)
    (fresh : BlockId) (now : UInt64) :
    (l.append fresh now).1 = .error (.store e) ↔ l.store.signer.Fits l.waiting := by
  rw [append_eq_error_iff]
  constructor
  · intro ha
    obtain ⟨_, hfits, _⟩ := h.indexes.refuses_of_append he ha
    exact hfits
  · intro hf
    have hseals := hs.seals hf h.reads fresh now
    exact (h.indexes.append_concur hseals).eq_error_iff.mpr ((h.indexes.refuses_iff fresh).mp h.refuses)

theorem append_discard (h : l.Blocked log e) (hs : l.store.signer.Signs) (fresh : BlockId)
    (now : UInt64) :
    ∃ b, (l.discard.2.append fresh now).1 = .ok b ∧
      l.store.tables.GainsEmpty (l.discard.2.append fresh now).2.store.tables b := by
  have hseals := hs.seals h.fits h.reads fresh now
  have hempty : log.recordAll fresh [] = .ok log := rfl
  obtain ⟨⟨b, u⟩, ht, _⟩ := (h.indexes.append_concur hseals).exists_left hempty
  rcases l.discard.2.append_cases fresh now with ⟨cause, hcause, _⟩ | ⟨b', u', ht', ha⟩
  · have hok : Tables.append l.store.signer fresh now [] l.store.tables = .error cause := hcause
    rw [ht] at hok
    cases hok
  · rw [ha, settled_store]
    exact ⟨b', rfl, Tables.gainsEmpty_of_append ht'⟩

theorem submit (h : l.Blocked log e) (entities : EntityResolver) (contracts : ContractResolver)
    (c : Certificate) : (l.submit entities contracts c).2.Blocked log e := by
  rcases l.submit_cases entities contracts c with ⟨_, hs⟩ | ⟨id, x, _, hs⟩
  · rw [hs]
    exact h
  · rw [hs]
    have hwaiting : (l.enqueue id x).waiting = l.waiting ++ [x.certificate] := List.map_append
    exact ⟨h.indexes, h.reads, h.fits, hwaiting ▸ h.refuses.append [x.certificate]⟩

theorem ensureRoot (h : l.Blocked log e) (now : UInt64) :
    (l.call (.ensureRoot now)).Blocked log e := by
  have hindexes : (l.call (.ensureRoot now)).store.tables.Indexes (log ++ []) :=
    Store.call_indexes (c := .ensureRoot now) h.indexes
  rw [List.append_nil] at hindexes
  refine ⟨hindexes, call_readsHead h.reads trivial, ?_, ?_⟩
  · rw [l.call_signer]
    exact h.fits
  · have hrecord := (h.indexes.refuses_iff .root).mp h.refuses
    exact (hindexes.refuses_iff .root).mpr hrecord

/-- No call but a discard takes the refused transaction out of the queue, or records anything. -/
theorem call (h : l.Blocked log e) (hc : c ≠ .discard) : (l.call c).Blocked log e := by
  cases c with
  | submit entities contracts d => exact h.submit entities contracts d
  | append fresh now =>
    obtain ⟨cause, ha⟩ := h.append_eq fresh now
    have hcall : l.call (.append fresh now) = l := congrArg Prod.snd ha
    rw [hcall]
    exact h
  | discard => exact absurd rfl hc
  | ensureRoot now => exact h.ensureRoot now

theorem run (h : l.Blocked log e) (hlater : ∀ c ∈ later, c ≠ .discard) :
    (l.run later).Blocked log e := by
  induction later generalizing l with
  | nil => exact h
  | cons c later ih =>
    have hc : (l.call c).Blocked log e := h.call (hlater c List.mem_cons_self)
    exact ih hc fun d hd => hlater d (List.mem_cons_of_mem c hd)

theorem staysBlocked (h : l.Blocked log e) (he : e.isRefusal = true) (hs : l.store.signer.Signs) :
    l.StaysBlocked e where
  refused := by
    intro later hlater fresh now
    have hrun := h.run hlater
    have hsigner : (l.run later).store.signer = l.store.signer := l.run_signer later
    have hiff := hrun.append_iff he (hsigner ▸ hs) fresh now
    rw [hsigner] at hiff
    exact ⟨hrun.append_eq fresh now, hiff⟩
  discarded := by
    intro later hlater fresh now
    have hrun := h.run hlater
    have hsigner : (l.run later).store.signer = l.store.signer := l.run_signer later
    exact hrun.append_discard (hsigner ▸ hs) fresh now

end Blocked

/-- A ledger whose append is refused is blocked. -/
theorem Queues.blocked (h : l.Queues log) (he : e.isRefusal = true)
    (ha : (l.append fresh now).1 = .error (.store e)) : l.Blocked log e := by
  obtain ⟨hreads, hfits, hrefuses⟩ := h.indexes.refuses_of_append he (append_eq_error_iff.mp ha)
  exact ⟨h.indexes, hreads, hfits.mono (List.nil_subset _), hrefuses⟩

/-- Once an append is refused, the queue stays blocked until it is discarded, and only until then. -/
theorem run_staysBlocked (config : LedgerConfig) {signer : BlockSigner} (hs : signer.Signs)
    (earlier : List StoreCall) (calls : List LedgerCall) (fresh : BlockId) (now : UInt64)
    (e : StoreError) (he : e.isRefusal = true)
    (ha : (((start config ((Store.start signer).run earlier)).run calls).append fresh now).1 =
      .error (.store e)) :
    ((start config ((Store.start signer).run earlier)).run calls).StaysBlocked e := by
  obtain ⟨log, hq⟩ := (queues_start config (Store.run_start_indexes signer earlier)).run calls
  have hsigner : ((start config ((Store.start signer).run earlier)).run calls).store.signer =
      signer := (run_signer ..).trans (Store.run_signer ..)
  apply (hq.blocked he ha).staysBlocked he
  rw [hsigner]
  exact hs

end Ledger

/-! A transaction that starts an artifact is queued before one whose predecessor is not recorded. -/

namespace Sample

def orphaned : Ledger :=
  (Ledger.start { validateOnSubmit := false } ((Store.start signer).run [])).run
    [.submit entities .none (starting ⟨.ofNat 16 4⟩).certificate,
      .submit entities .none (following ⟨.ofNat 16 6⟩ ⟨.ofNat 16 5⟩).certificate]

/-- Calls that go on while the queue is blocked. The last one queues the missing predecessor. -/
def retrying : List LedgerCall :=
  [.ensureRoot 0, .append ⟨.ofNat 16 7⟩ 0,
    .submit entities .none (following ⟨.ofNat 16 5⟩ ⟨.ofNat 16 4⟩).certificate]

theorem not_discard_retrying : ∀ c ∈ retrying, c ≠ .discard := by
  intro c hc
  simp only [retrying, List.mem_cons, List.not_mem_nil, or_false] at hc
  rcases hc with rfl | rfl | rfl <;> exact fun heq => nomatch heq

end Sample

namespace Ledger

theorem staysBlocked_orphaned :
    (Sample.orphaned.append ⟨.ofNat 16 7⟩ 0).1 =
      .error (.store (.missingPrevious ⟨.ofNat 16 6⟩ ⟨.ofNat 16 5⟩)) ∧
    ((Sample.orphaned.run Sample.retrying).append ⟨.ofNat 16 8⟩ 0).1 =
      .error (.store (.missingPrevious ⟨.ofNat 16 6⟩ ⟨.ofNat 16 5⟩)) ∧
    ∃ b, ((Sample.orphaned.run Sample.retrying).discard.2.append ⟨.ofNat 16 8⟩ 0).1 = .ok b ∧
      b.certificate.fieldsOf .wrappedTransaction = .ok [] := by
  have hfirst : (Sample.orphaned.append ⟨.ofNat 16 7⟩ 0).1 =
      .error (.store (.missingPrevious ⟨.ofNat 16 6⟩ ⟨.ofNat 16 5⟩)) := by decide +kernel
  have hblocked := run_staysBlocked { validateOnSubmit := false } Sample.signs_signer []
    [.submit Sample.entities .none (Sample.starting ⟨.ofNat 16 4⟩).certificate,
      .submit Sample.entities .none (Sample.following ⟨.ofNat 16 6⟩ ⟨.ofNat 16 5⟩).certificate]
    ⟨.ofNat 16 7⟩ 0 (.missingPrevious ⟨.ofNat 16 6⟩ ⟨.ofNat 16 5⟩) rfl hfirst
  have hfits : Sample.signer.Fits (Sample.orphaned.run Sample.retrying).waiting :=
    ⟨by decide, by decide +kernel⟩
  have hsigner : Sample.orphaned.store.signer = Sample.signer :=
    (run_signer ..).trans (Store.run_signer ..)
  obtain ⟨_, hagain⟩ := hblocked.refused Sample.retrying Sample.not_discard_retrying ⟨.ofNat 16 8⟩ 0
  obtain ⟨b, hb, hempty⟩ :=
    hblocked.discarded Sample.retrying Sample.not_discard_retrying ⟨.ofNat 16 8⟩ 0
  refine ⟨hfirst, hagain.mpr ?_, b, hb, hempty.wraps⟩
  show Sample.orphaned.store.signer.Fits (Sample.orphaned.run Sample.retrying).waiting
  rw [hsigner]
  exact hfits

end Ledger

end SignedLedger
