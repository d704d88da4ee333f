import SignedLedger.Proofs.AppendScript
import SignedLedger.Proofs.LedgerRun

/-! Calls that fail. A failed call could as well not have been made: a run comes to the same ledger
without it. For an append this is the work of the engine. By the time it fails it may have written a
missing root and a part of its batch, all of it beside the committed tables. -/

namespace SignedLedger

namespace Tables

variable {s : BlockSigner} {block : BlockId} {now : UInt64} {pending : List Certificate}
variable {t u v w : Tables} {previous : Block}

theorem isSome_get?_putTransaction {key : Bytes} (r : RecordedTransaction)
    (h : (t.get? .transactions key).isSome = true) :
    ((t.putTransaction r).get? .transactions key).isSome = true := by
  rw [get?_putTransaction]
  split
  · rfl
  · exact h

theorem isSome_get?_recorded {x : Transaction} {extended : Option RecordedTransaction}
    {r : Artifact} {key : Bytes} (h : key = x.id.bytes ∨ (t.get? .transactions key).isSome = true) :
    ((t.recorded block x extended r).get? .transactions key).isSome = true := by
  let opened := t.putTransaction
    { id := x.id, block, previous := x.previous, next := .nil, certificate := x.certificate }
  have hopened : (opened.get? .transactions key).isSome = true := by
    rcases h with rfl | h
    · simp [opened]
    · exact isSome_get?_putTransaction _ h
  have hartifact : ((opened.putArtifact r).get? .transactions key).isSome = true := by
    simpa using hopened
  cases extended with
  | none => exact hartifact
  | some p => exact isSome_get?_putTransaction _ hartifact

/-- What is recorded stays, and every certificate of a batch is recorded. -/
theorem isSome_get?_recordAll (h : t.recordAll block pending = .ok u) :
    (∀ key, (t.get? .transactions key).isSome = true → (u.get? .transactions key).isSome = true) ∧
      ∀ d ∈ pending, ∃ x, Transaction.parse d = .ok x ∧
        (u.get? .transactions x.id.bytes).isSome = true := by
  induction pending generalizing t with
  | nil =>
    cases h
    exact ⟨fun _ hk => hk, List.forall_mem_nil _⟩
  | cons d rest ih =>
    rw [recordAll, List.foldlM_cons] at h
    obtain ⟨v, hd, hrest⟩ := bind_eq_ok_iff.mp h
    obtain ⟨x, hx, hr⟩ := bind_eq_ok_iff.mp hd
    obtain ⟨extended, r, rfl⟩ := record_eq_ok hr
    obtain ⟨hkeep, hall⟩ := ih hrest
    have hparse := mapError_eq_ok_iff.mp hx
    refine ⟨fun key hk => hkeep key (isSome_get?_recorded (.inr hk)), ?_⟩
    intro c hc
    rcases List.mem_cons.mp hc with rfl | hc
    · exact ⟨x, hparse, hkeep _ (isSome_get?_recorded (.inl rfl))⟩
    · exact hall c hc

/-- The root is there before the first transaction of an empty ledger is recorded. -/
theorem get?_root_of_recordAll (ht : t.head? = .ok none)
    (hp : t.headOrRoot s now = .ok (previous, v)) (hw : v.recordAll block pending = .ok w) :
    w.get? .blocks (Identifier.bytes .root) = some previous.encode := by
  obtain ⟨hblocks, _, _⟩ := recordAll_keeps hw
  rcases headOrRoot_eq_ok hp with ⟨hhead, _⟩ | ⟨_, hroot⟩
  · cases ht.symm.trans hhead
  · obtain ⟨d, _, rfl, rfl⟩ := createRoot_eq_ok hroot
    have hget : w.get? .blocks (Identifier.bytes .root) =
        (((Tables.putBlock t (BlockHeader.root.block d)).putHeight 0 .root).putHead
          (BlockHeader.root.block d)).get? .blocks (Identifier.bytes .root) :=
      congrArg (·.get? (Identifier.bytes .root)) hblocks
    rw [hget]
    simp [putHead, putHeight, putBlock, get?_put, BlockHeader.block, BlockHeader.root]

end Tables

namespace Ledger

def fails (l : Ledger) : LedgerCall → Bool
  | .submit entities contracts c => !(l.submit entities contracts c).1.isOk
  | .append fresh now => !(l.append fresh now).1.isOk
  | .discard => false
  | .ensureRoot now => !(l.ensureRoot now).1.isOk

/-- The calls of a run that do not fail. -/
def kept (l : Ledger) : List LedgerCall → List LedgerCall
  | [] => []
  | c :: calls => if l.fails c then l.kept calls else c :: (l.call c).kept calls

/-- That failed calls leave no trace, and what an append that fails has staged all the same. -/
structure LeavesNoTrace (l : Ledger) : Prop where
  call : ∀ c, l.fails c = true → l.call c = l
  run : ∀ calls, l.run (l.kept calls) = l.run calls
  engine : ∀ medium fresh now pending,
    (Engine.mk medium l.store.tables).transact (.append l.store.signer fresh now pending) =
      ((l.store.append fresh now pending).1, ⟨medium, (l.store.append fresh now pending).2.tables⟩)
  requests : ∀ medium fresh now pending,
    ((Engine.mk medium l.store.tables).write
      ((Engine.mk medium l.store.tables).requests (.append l.store.signer fresh now pending))
      ((l.store.append fresh now pending).1.map fun _ => ())).2 =
      ⟨medium, (l.store.append fresh now pending).2.tables⟩
  staged : ∀ fresh now pending e, (l.store.append fresh now pending).1 = .error e →
    (l.store.append fresh now pending).2 = l.store ∧
      ∃ o v, (Script.append l.store.signer fresh now pending).Leaves l.store.tables e o v ∧
        l.store.tables.Staged l.store.signer fresh now pending e v
  first : ∀ fresh now before c after previous w e, l.store.tables = .empty →
    l.store.tables.Rejects l.store.signer fresh now before c after previous w e →
    l.store.append fresh now (before ++ c :: after) = (.error e, l.store) ∧
      ∃ o, (Script.append l.store.signer fresh now (before ++ c :: after)).Leaves .empty e o w ∧
        o.get? .blocks (Identifier.bytes .root) = some previous.encode ∧
        ∀ d ∈ before, ∃ x, Transaction.parse d = .ok x ∧
          (o.get? .transactions x.id.bytes).isSome = true

variable {l : Ledger} {c : LedgerCall}

theorem call_of_fails (h : l.fails c = true) : l.call c = l := by
  cases c with
  | submit entities contracts d =>
    rcases l.submit_cases entities contracts d with ⟨e, hs⟩ | ⟨id, x, _, hs⟩
    · exact congrArg Prod.snd hs
    · simp [fails, hs, Except.isOk, Except.toBool] at h
  | append fresh now =>
    rcases l.append_cases fresh now with ⟨e, _, hs⟩ | ⟨b, t, _, hs⟩
    · exact congrArg Prod.snd hs
    · simp [fails, hs, Except.isOk, Except.toBool] at h
  | discard => cases h
  | ensureRoot now =>
    rcases l.store.write_cases (Tables.ensureRoot l.store.signer now) with ⟨e, hs⟩ | ⟨b, t, _, hs⟩
    · simp [call, ensureRoot, Store.ensureRoot, hs]
    · simp [fails, ensureRoot, Store.ensureRoot, hs, Except.isOk, Except.toBool] at h

theorem run_kept (l : Ledger) (calls : List LedgerCall) : l.run (l.kept calls) = l.run calls := by
  induction calls generalizing l with
  | nil => rfl
  | cons c calls ih =>
    unfold kept
    split
    · rename_i hfails
      have hcall : l.run (c :: calls) = (l.call c).run calls := rfl
      rw [hcall, call_of_fails hfails, ih]
    · exact ih (l.call c)

end Ledger

namespace Store

theorem transact_append (s : Store) (medium : Medium) (fresh : BlockId) (now : UInt64)
    (pending : List Certificate) :
    (Engine.mk medium s.tables).transact (.append s.signer fresh now pending) =
      ((s.append fresh now pending).1, ⟨medium, (s.append fresh now pending).2.tables⟩) := by
  rw [Engine.transact_eq, Script.effect_append, append, write]
  cases s.tables.append s.signer fresh now pending <;> rfl

variable {s : Store} {fresh : BlockId} {now : UInt64} {pending : List Certificate} {e : StoreError}

theorem append_eq_error_iff :
    (s.append fresh now pending).1 = .error e ↔
      s.tables.append s.signer fresh now pending = .error e := by
  unfold append write
  cases s.tables.append s.signer fresh now pending <;> simp

theorem append_of_error (h : s.tables.append s.signer fresh now pending = .error e) :
    s.append fresh now pending = (.error e, s) := by
  unfold append write
  rw [h]

/-- What is staged is known, whatever made the append fail. -/
theorem exists_staged (h : s.tables.append s.signer fresh now pending = .error e) :
    ∃ o v, (Script.append s.signer fresh now pending).Leaves s.tables e o v ∧
      s.tables.Staged s.signer fresh now pending e v := by
  rw [← Script.effect_append] at h
  obtain ⟨v, hv⟩ := Script.effect_eq_error_iff.mp h
  obtain ⟨o, ho⟩ := Script.exists_leaves hv
  exact ⟨o, v, ho, Script.run_append_eq_error_iff.mp hv⟩

end Store

namespace Ledger

theorem leavesNoTrace (l : Ledger) : l.LeavesNoTrace where
  call := fun _ => call_of_fails
  run := l.run_kept
  engine := fun medium fresh now pending => l.store.transact_append medium fresh now pending
  requests := by
    intro medium fresh now pending
    have htransact := l.store.transact_append medium fresh now pending
    have hwrite := Engine.transact_eq_write ⟨medium, l.store.tables⟩
      (.append l.store.signer fresh now pending)
    rw [htransact] at hwrite
    exact hwrite.symm
  staged := by
    intro fresh now pending e h
    have herror := Store.append_eq_error_iff.mp h
    exact ⟨congrArg Prod.snd (Store.append_of_error herror), Store.exists_staged herror⟩
  first := by
    intro fresh now before c after previous w e hempty h
    have hrun := Script.run_append_eq_error_iff.mpr (.transaction rfl h)
    have herror := Script.effect_eq_error_iff.mpr ⟨w, hrun⟩
    rw [Script.effect_append] at herror
    refine ⟨Store.append_of_error herror, ?_⟩
    rw [hempty] at hrun h
    obtain ⟨o, ho⟩ := Script.exists_leaves hrun
    obtain ⟨v, hp, hw⟩ := h.recorded
    refine ⟨o, ho, ?_, fun d hd => ?_⟩
    · have hnone : Tables.empty.head? = .ok none := rfl
      exact (ho.shows _ _).trans (Tables.get?_root_of_recordAll hnone hp hw)
    · obtain ⟨x, hx, hsome⟩ := (Tables.isSome_get?_recordAll hw).2 d hd
      exact ⟨x, hx, (ho.shows _ _).symm ▸ hsome⟩

end Ledger

/-! A first batch whose second transaction starts the artifact again. -/

namespace Sample

def opening : Except StoreError (Block × Tables) := do
  let (root, t) ← Tables.headOrRoot signer 0 .empty
  return (root, ← t.recordAll ⟨.ofNat 16 3⟩ [(starting ⟨.ofNat 16 4⟩).certificate])

theorem exists_rejects_restarting : ∃ previous w, Tables.Rejects signer ⟨.ofNat 16 3⟩ 0
    [(starting ⟨.ofNat 16 4⟩).certificate] (starting ⟨.ofNat 16 5⟩).certificate [] .empty previous w
    (.artifactConflict artifact ⟨.ofNat 16 4⟩ .nil) := by
  have hok : opening.toOption.isSome = true := by decide +kernel
  have hrefused : (opening.bind fun p =>
      p.2.recordCertificate ⟨.ofNat 16 3⟩ (starting ⟨.ofNat 16 5⟩).certificate).map (fun _ => ()) =
        .error (.artifactConflict artifact ⟨.ofNat 16 4⟩ .nil) := by
    decide +kernel
  cases hopening : opening with
  | error e =>
    rw [hopening] at hok
    cases hok
  | ok p =>
    rw [hopening] at hrefused
    obtain ⟨⟨previous, v⟩, hp, hrest⟩ := bind_eq_ok_iff.mp hopening
    obtain ⟨w, hw, hpair⟩ := bind_eq_ok_iff.mp hrest
    cases hpair
    refine ⟨previous, w, ⟨v, hp, hw⟩, ?_, ?_⟩
    · exact signs_signer.exists_certificate ⟨by decide, by decide +kernel⟩ _ _
    · cases hc : w.recordCertificate ⟨.ofNat 16 3⟩ (starting ⟨.ofNat 16 5⟩).certificate with
      | error e => simpa [Except.bind, hc] using hrefused
      | ok u => simp [Except.bind, hc] at hrefused

end Sample

namespace Ledger

theorem leavesNoTrace_restarting :
    (Store.start Sample.signer).append ⟨.ofNat 16 3⟩ 0
        [(Sample.starting ⟨.ofNat 16 4⟩).certificate, (Sample.starting ⟨.ofNat 16 5⟩).certificate] =
      (.error (.artifactConflict Sample.artifact ⟨.ofNat 16 4⟩ .nil), .start Sample.signer) ∧
    ∃ o : Overlay, o.base = .empty ∧
      (o.get? .blocks (Identifier.bytes .root)).isSome = true ∧
      (o.get? .transactions (Sample.starting ⟨.ofNat 16 4⟩).id.bytes).isSome = true := by
  have h := leavesNoTrace (.start {} (.start Sample.signer))
  obtain ⟨previous, w, hrejects⟩ := Sample.exists_rejects_restarting
  obtain ⟨happend, o, ho, hroot, hearlier⟩ := h.first _ _ _ _ _ _ _ _ rfl hrejects
  obtain ⟨x, hx, hsome⟩ := hearlier _ List.mem_cons_self
  have hparse : Transaction.parse (Sample.starting ⟨.ofNat 16 4⟩).certificate =
      .ok (Sample.starting ⟨.ofNat 16 4⟩) := by
    decide +kernel
  obtain rfl := Except.ok.inj (hparse.symm.trans hx)
  exact ⟨happend, o, ho.base, by rw [hroot]; rfl, hsome⟩

end Ledger

end SignedLedger
