import SignedLedger.Proofs.Acceptance
import SignedLedger.Proofs.LedgerRun
import SignedLedger.Proofs.TamperEvidence

/-! Attestation later on. Keys that a registry has at a height it has at every later one, so that
what is attested once is attested with the same result from then on, with contracts or without. The
head of a ledger never falls back: blocks that are appended take no attestation away. -/

namespace SignedLedger

theorem EntityRegistry.resolve_of_le {registry : EntityRegistry} {entity : EntityId}
    {height later : UInt64} {keys : EntityKeys} (hle : height ≤ later)
    (h : registry.resolve entity height = .ok keys) : registry.resolve entity later = .ok keys := by
  unfold resolve at h ⊢
  cases hr : registry.entities.get? entity with
  | none =>
    rw [hr] at h
    cases h
  | some registration =>
    simp only [hr] at h ⊢
    by_cases hactive : registration.activeFrom ≤ height
    · rw [if_pos hactive] at h
      rw [if_pos (UInt64.le_trans hactive hle)]
      exact h
    · rw [if_neg hactive] at h
      cases h

namespace Attestation

variable {suite : Suite} {r r' : Resolvers} {o o' : AttestOptions} {depth : Nat} {c d : Certificate}
variable {a : Attestation} {fields : FieldList} {message signature : Bytes} {signer : EntityId}
variable {size : Nat}

/-- That whatever resolves for an attestation with `r` and `o` resolves for one with `r'` and `o'`,
and that no more is checked. -/
structure Outlasts (r r' : Resolvers) (o o' : AttestOptions) : Prop where
  entities : ∀ entity keys, r.entities entity o.height = .ok keys →
    r'.entities entity o'.height = .ok keys
  contracts : r'.contracts = r.contracts
  validates : o'.validateContract = true → o.validateContract = true

theorem Outlasts.vouched (h : Outlasts r r' o o')
    (hv : Vouched suite r.entities o.height fields message signature signer) :
    Vouched suite r'.entities o'.height fields message signature signer where
  named := hv.named
  author := hv.author
  verified := by
    obtain ⟨keys, hk, hne, hverify⟩ := hv.verified
    exact ⟨keys, h.entities signer keys hk, hne, hverify⟩

theorem Outlasts.stands (h : Outlasts r r' o o') (hs : Stands suite r o depth c fields signer size)
    (hstate : depth = 0 → ∀ i : ArtifactId, fields.lookup .artifactId = some i.bytes →
      r'.artifacts i = r.artifacts i) : Stands suite r' o' depth c fields signer size := by
  obtain ⟨⟨message, signature, hsigns, hv, hsize⟩, artifact, ha, hcontinues, hallowed⟩ := hs
  refine ⟨⟨message, signature, hsigns, h.vouched hv, hsize⟩, artifact, ha, ?_, ?_⟩
  · rintro hd i hi
    obtain ⟨previous, latest, hp, hl, heq⟩ := hcontinues hd i hi
    have hi : artifact = some i := hi
    rw [hi] at ha
    exact ⟨previous, latest, hp, (hstate hd i ha).trans hl, heq⟩
  · intro hv
    rw [h.contracts]
    exact hallowed (h.validates hv)

/-- What is trusted stays trusted, all the way down the chain. Only the outermost certificate asks
for the state of its artifact. -/
theorem Outlasts.trusted (h : Outlasts r r' o o') (ht : Trusted suite r o depth c a)
    (hstate : depth = 0 → ∀ i, (c.narrow a.visible).identifier .artifactId = .ok (some i) →
      r'.artifacts i = r.artifacts i) : Trusted suite r' o' depth c a := by
  have hnamed : ∀ {depth c fields signer size}, Stands suite r o depth c fields signer size →
      ∀ i : ArtifactId, fields.lookup .artifactId = some i.bytes →
        (c.narrow size).identifier .artifactId = .ok (some i) := by
    intro depth c fields signer size hs i hi
    obtain ⟨message, signature, hsigns, _, rfl⟩ := hs.signed
    exact (hsigns.identifier_narrow (by decide)).mpr hi
  induction ht with
  | single hs hc =>
    exact .single (h.stands hs fun hd i hi => hstate hd i (hnamed hs i hi)) hc
  | nested hs hc hd _ ih =>
    have hnested := ih fun h0 => absurd h0 (Nat.succ_ne_zero _)
    exact .nested (h.stands hs fun hd i hi => hstate hd i (hnamed hs i hi)) hc hd hnested

theorem Outlasts.attestation (h : Outlasts r r' o o') (hc : c.attestation suite r o = .ok a)
    (hstate : ∀ i, (c.narrow a.visible).identifier .artifactId = .ok (some i) →
      r'.artifacts i = r.artifacts i) : c.attestation suite r' o' = .ok a := by
  rw [attestation_eq_ok_iff_trusted] at hc ⊢
  exact h.trusted hc fun _ => hstate

end Attestation

/-! The head of a ledger. -/

namespace Store

variable {s : Store} {c : StoreCall} {h : BlockHistory}

theorem call_grows (hs : s.tables.Holds s.signer h) (hc : s.Admits c) :
    ∃ h', (s.call c).tables.Holds s.signer h' ∧ h.length ≤ h'.length := by
  refine call_induction (P := fun t => ∃ h', t.Holds s.signer h' ∧ h.length ≤ h'.length)
    ⟨h, hs, Nat.le_refl _⟩ ?_ ?_
  · rintro fresh now pending b t rfl ht
    obtain ⟨init, last, xs, hu, hh⟩ := hs.append hc ht
    refine ⟨_, hu, ?_⟩
    rcases hh with rfl | ⟨rfl, _⟩
    · simp
    · exact Nat.zero_le _
  · intro now b t _ ht
    rcases hs.ensureRoot ht with ⟨_, rfl⟩ | ⟨rfl, hu⟩
    · exact ⟨h, hs, Nat.le_refl _⟩
    · exact ⟨_, hu, Nat.zero_le _⟩

end Store

namespace Ledger

variable {l : Ledger} {c : LedgerCall} {calls : List LedgerCall} {h : BlockHistory}
variable {height later : UInt64}

theorem call_grows (hl : l.store.tables.Holds l.store.signer h) (hc : l.Admits c) :
    ∃ h', (l.call c).store.tables.Holds (l.call c).store.signer h' ∧ h.length ≤ h'.length := by
  rw [call_signer, call_store]
  cases c with
  | submit => exact ⟨h, hl, Nat.le_refl _⟩
  | append fresh now => exact Store.call_grows hl (hc _ List.mem_cons_self)
  | discard => exact ⟨h, hl, Nat.le_refl _⟩
  | ensureRoot now => exact Store.call_grows hl (hc _ List.mem_cons_self)

theorem Along.grows (hc : l.Along Admits calls) (hl : l.store.tables.Holds l.store.signer h) :
    ∃ h', (l.run calls).store.tables.Holds (l.run calls).store.signer h' ∧
      h.length ≤ h'.length := by
  apply hc.run (I := fun l => ∃ h', l.store.tables.Holds l.store.signer h' ∧ h.length ≤ h'.length)
  · exact ⟨h, hl, Nat.le_refl _⟩
  · rintro l c ⟨h', hl', hle⟩ hc
    obtain ⟨h'', hl'', hle'⟩ := call_grows hl' hc
    exact ⟨h'', hl'', Nat.le_trans hle hle'⟩

/-- The head is as high as there are blocks below it. -/
theorem exists_headHeight (hl : l.store.tables.Holds l.store.signer h) :
    ∃ height, l.headHeight = .ok height ∧ height.toNat = h.length - 1 := by
  cases hlast : h.getLast? with
  | none =>
    obtain rfl := List.getLast?_eq_none_iff.mp hlast
    refine ⟨0, ?_, rfl⟩
    rw [headHeight, hl.head?, hlast]
    rfl
  | some e =>
    have he : h[h.length - 1]? = some e := by rw [← List.getLast?_eq_getElem?, hlast]
    refine ⟨e.block.height, ?_, hl.valid.height he⟩
    rw [headHeight, hl.head?, hlast]
    rfl

theorem Along.headHeight_le (hc : l.Along Admits calls)
    (hl : l.store.tables.Holds l.store.signer h) (hh : l.headHeight = .ok height) :
    ∃ later, (l.run calls).headHeight = .ok later ∧ height ≤ later := by
  obtain ⟨h', hl', hle⟩ := hc.grows hl
  obtain ⟨later, hlater, hn'⟩ := exists_headHeight hl'
  obtain ⟨height', hh', hn⟩ := exists_headHeight hl
  obtain rfl : height = height' := Except.ok.inj (hh.symm.trans hh')
  refine ⟨later, hlater, UInt64.le_iff_toNat_le.mpr ?_⟩
  rw [hn, hn']
  exact Nat.sub_le_sub_right hle 1

end Ledger

namespace EntityRegistry

/-- That an attestation by the keys of the registry is there to stay: at every later height, without
contracts where there were some, and for every later head of a ledger in which the artifact has not
moved on. -/
structure Lasting (registry : EntityRegistry) : Prop where
  later : ∀ (suite : Suite) (artifacts : ArtifactResolver) (contracts : ContractResolver)
    (o o' : AttestOptions) (c d : Certificate) (a : Attestation), o.height ≤ o'.height →
    (o'.validateContract = true → o.validateContract = true) →
    c.attest suite ⟨registry.resolve, artifacts, contracts⟩ o = (.ok a, d) →
    c.attest suite ⟨registry.resolve, artifacts, contracts⟩ o' = (.ok a, d)
  ahead : ∀ (config : LedgerConfig) (store : Store) (earlier later : List LedgerCall)
    (contracts : ContractResolver) (v v' : Bool) (c d : Certificate) (a : Attestation),
    store.Reachable → (Ledger.start config store).Along Ledger.Admits earlier →
    ((Ledger.start config store).run earlier).Along Ledger.Admits later →
    (v' = true → v = true) →
    ((Ledger.start config store).run earlier).attest registry.resolve contracts v c = .ok (d, a) →
    (∀ i, d.identifier .artifactId = .ok (some i) →
      (((Ledger.start config store).run earlier).run later).store.tables.artifactState i =
        ((Ledger.start config store).run earlier).store.tables.artifactState i) →
    (((Ledger.start config store).run earlier).run later).attest registry.resolve contracts v' c =
      .ok (d, a)

theorem outlasts (registry : EntityRegistry) (artifacts artifacts' : ArtifactResolver)
    (contracts : ContractResolver) {o o' : AttestOptions} (hle : o.height ≤ o'.height)
    (hv : o'.validateContract = true → o.validateContract = true) :
    Attestation.Outlasts ⟨registry.resolve, artifacts, contracts⟩
      ⟨registry.resolve, artifacts', contracts⟩ o o' where
  entities := fun _ _ h => resolve_of_le hle h
  contracts := rfl
  validates := hv

theorem lasting (registry : EntityRegistry) : registry.Lasting where
  later := by
    intro suite artifacts contracts o o' c d a hle hv hc
    obtain ⟨hok, rfl⟩ := Attestation.attest_eq_ok_iff.mp hc
    have houtlasts := registry.outlasts artifacts artifacts contracts hle hv
    have hlater := houtlasts.attestation hok fun _ _ => rfl
    exact Attestation.attest_eq_ok_iff.mpr ⟨hlater, rfl⟩
  ahead := by
    intro config store earlier later contracts v v' c d a hs hearlier hlater hv hc hstate
    obtain ⟨h, hh⟩ := hearlier.exists_history hs.exists_history
    obtain ⟨height, hheight, hok, rfl⟩ := Submission.attestWith_eq_ok_iff.mp hc
    obtain ⟨height', hheight', hle⟩ := hlater.headHeight_le hh hheight
    have hsuite : (((Ledger.start config store).run earlier).run later).store.suite =
        ((Ledger.start config store).run earlier).store.suite :=
      congrArg BlockSigner.suite (Ledger.run_signer ..)
    have hoptions : (⟨height, v⟩ : AttestOptions).height ≤ (⟨height', v'⟩ : AttestOptions).height :=
      hle
    have houtlasts := registry.outlasts
      ((Ledger.start config store).run earlier).store.tables.artifactState
      (((Ledger.start config store).run earlier).run later).store.tables.artifactState contracts
      hoptions hv
    refine Submission.attestWith_eq_ok_iff.mpr ⟨height', hheight', ?_, rfl⟩
    rw [hsuite]
    exact houtlasts.attestation hok hstate

/-- The signer of both certificates of a chain is known from height two on. -/
example : [1, 2, 3].map (fun height => (Sample.outer.attest (.checksum 1 4 4)
      ⟨(register {} Sample.notary ⟨[], [9]⟩ 2).resolve, .none, .none⟩ ⟨height, false⟩).1.toOption) =
    [none, some ⟨Sample.notary, Sample.outer.visible, 1⟩,
      some ⟨Sample.notary, Sample.outer.visible, 1⟩] := by
  decide +kernel

end EntityRegistry

namespace Sample

def knowing : EntityRegistry :=
  EntityRegistry.register {} notary ⟨[], [9]⟩ 0

def advancing : List LedgerCall :=
  [.append ⟨.ofNat 16 3⟩ 0]

theorem admits_advancing :
    ((Ledger.start {} (.start signer)).run []).Along Ledger.Admits advancing := by
  refine ⟨?_, trivial⟩
  intro sc hsc
  obtain rfl := List.mem_singleton.mp hsc
  refine ⟨by decide, by decide, by decide, fun head hhead => ?_, by decide⟩
  cases hhead

end Sample

namespace EntityRegistry

/-- The head moves from height zero to height one. -/
theorem lasting_advancing :
    ((Ledger.start {} (.start Sample.signer)).run []).attest Sample.knowing.resolve .none false
        Sample.outer =
      .ok (Sample.outer.narrow Sample.outer.visible, ⟨Sample.notary, Sample.outer.visible, 1⟩) ∧
    (((Ledger.start {} (.start Sample.signer)).run []).run Sample.advancing).headHeight = .ok 1 ∧
    (((Ledger.start {} (.start Sample.signer)).run []).run Sample.advancing).attest
        Sample.knowing.resolve .none false Sample.outer =
      .ok (Sample.outer.narrow Sample.outer.visible, ⟨Sample.notary, Sample.outer.visible, 1⟩) := by
  have hfirst : ((Ledger.start {} (.start Sample.signer)).run []).attest Sample.knowing.resolve
      .none false Sample.outer =
      .ok (Sample.outer.narrow Sample.outer.visible, ⟨Sample.notary, Sample.outer.visible, 1⟩) := by
    decide +kernel
  have hunnamed : (Sample.outer.narrow Sample.outer.visible).identifier .artifactId =
      .ok (none : Option ArtifactId) := by
    decide +kernel
  refine ⟨hfirst, by decide +kernel, ?_⟩
  apply (lasting Sample.knowing).ahead {} _ [] Sample.advancing .none false false Sample.outer _ _
    (.start Sample.signer) trivial Sample.admits_advancing id hfirst
  intro i hi
  rw [hunnamed] at hi
  cases hi

end EntityRegistry

end SignedLedger
