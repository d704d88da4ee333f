import SignedLedger.Proofs.VisiblePart
import SignedLedger.Trust.Attestation

/-! What the checks of an attestation accept, one equivalence for each check. -/

namespace SignedLedger

namespace Attestation

variable {suite : Suite} {r : Resolvers} {o : AttestOptions} {depth levels : Nat} {c : Certificate}
variable {entities : EntityResolver} {height : UInt64} {v : Verified} {a : Attestation}
variable {artifacts : ArtifactResolver} {contracts : ContractResolver}

/-- That `c` is verified as `v`: field `f` names the signer, field `g` holds the signature, and `k`
are the keys of the signer. -/
structure Verifies (suite : Suite) (entities : EntityResolver) (height : UInt64) (c : Certificate)
    (v : Verified) (f g : Field) (k : EntityKeys) : Prop where
  signerField : c.field .signerId = .ok (some f)
  signer : f.value = v.signer.bytes
  signature : c.field .signature = .ok (some g)
  keys : entities v.signer height = .ok k
  signing : k.signing ≠ []
  signed : v.signed = c.narrow g.stop
  author : v.signed.identifier .authorId = .ok (none : Option EntityId) ∨
    v.signed.identifier .authorId = .ok (some v.signer)
  covered : f.stop ≤ g.offset
  verified : suite.verify k.signing g.value (c.raw.take g.offset) = true

theorem signedRegion_eq_some_iff {region : SignedRegion} :
    c.signedRegion = .ok (some region) ↔
      c.field .signature = .ok (some region.signature) ∧
        region.message = c.raw.take region.signature.offset := by
  obtain ⟨message, g⟩ := region
  unfold Certificate.signedRegion
  rcases c.field .signature with e | _ | f
  · simp
  · simp
  · simp only [map_ok, Option.map_some, Except.ok.injEq, Option.some.injEq, SignedRegion.mk.injEq]
    constructor
    · rintro ⟨rfl, rfl⟩
      exact ⟨rfl, rfl⟩
    · rintro ⟨rfl, rfl⟩
      exact ⟨rfl, rfl⟩

theorem verify_eq_ok_iff :
    verify suite entities height c = .ok v ↔
      ∃ f g k, Verifies suite entities height c v f g k := by
  unfold verify
  simp only [throw_eq_error, error_bind, ite_error_eq_ok_iff, bind_eq_ok_iff, structural_eq_ok_iff,
    liftCodec_eq_ok_iff, mapError_eq_ok_iff, signedRegion_eq_some_iff,
    Identifier.ofField_eq_ok_iff, Option.exists, reduceCtorEq, and_false, false_or, pure_eq_ok,
    Except.ok.injEq, Bool.or_eq_true, decide_eq_true_eq, Bool.not_eq_true', not_or, Nat.not_lt,
    Bool.not_eq_false, ne_eq, Decidable.not_not]
  constructor
  · rintro ⟨f, hf, signer, hs, region, ⟨hg, hm⟩, k, hk, hne, hlast⟩
    -- Whatever author is declared, the check of the signature comes last.
    rcases hlast with ⟨ha, ⟨hc, hv⟩, rfl⟩ | ⟨_, ha, rfl, ⟨hc, hv⟩, rfl⟩
    · exact ⟨f, region.signature, k, hf, hs, hg, hk, hne, rfl, .inl ha, hc, hm ▸ hv⟩
    · exact ⟨f, region.signature, k, hf, hs, hg, hk, hne, rfl, .inr ha, hc, hm ▸ hv⟩
  · rintro ⟨f, g, k, h⟩
    obtain ⟨signer, signed⟩ := v
    obtain rfl : signed = c.narrow g.stop := h.signed
    refine ⟨f, h.signerField, signer, h.signer, ⟨c.raw.take g.offset, g⟩, ⟨h.signature, rfl⟩, k,
      h.keys, h.signing, ?_⟩
    rcases h.author with ha | ha
    · exact .inl ⟨ha, ⟨h.covered, h.verified⟩, rfl⟩
    · exact .inr ⟨signer, ha, rfl, ⟨h.covered, h.verified⟩, rfl⟩

variable {attestNested : Certificate → Except AttestationError Nat} {n : Nat}

theorem chainDepthOf_eq_ok_iff :
    chainDepthOf attestNested c = .ok n ↔
      c.field .chainCertificate = .ok none ∧ n = 0 ∨
        ∃ f, c.field .chainCertificate = .ok (some f) ∧ attestNested f.nested = .ok n := by
  unfold chainDepthOf
  rcases c.field .chainCertificate with e | _ | f
  · simp
  · simp [eq_comm]
  · simp

theorem checkArtifactState_eq_ok_iff {artifact : ArtifactId} :
    checkArtifactState artifacts c artifact = .ok () ↔
      ∃ previous latest, c.identifier .previousTransactionId = .ok previous ∧
        artifacts artifact = .ok latest ∧ previous.getD .nil = latest.getD .nil := by
  simp only [checkArtifactState, throw_eq_error, ite_error_eq_ok_iff, bind_eq_ok_iff,
    structural_eq_ok_iff, mapError_eq_ok_iff, pure_eq_ok, and_true, ne_eq, Decidable.not_not]
  constructor
  · rintro ⟨previous, hp, latest, hl, h⟩
    exact ⟨previous, latest, hp, hl, h⟩
  · rintro ⟨previous, latest, hp, hl, h⟩
    exact ⟨previous, hp, latest, hl, h⟩

theorem checkContract_eq_ok_iff {artifact : Option ArtifactId} :
    checkContract contracts c artifact = .ok () ↔
      ∃ type contract, c.certificateType = .ok (some type) ∧
        contracts type artifact = some contract ∧ contract c = .ok () := by
  unfold checkContract
  rcases c.certificateType with e | _ | type
  · simp
  · simp
  · cases hc : contracts type artifact with
    | none => simp [hc]
    | some contract => simp [hc, mapError_eq_ok_iff]

theorem check_eq_ok_iff :
    check suite r o depth attestNested c = .ok a ↔
      ∃ v artifact, verify suite r.entities o.height c = .ok v ∧
        chainDepthOf attestNested v.signed = .ok a.chainDepth ∧
        v.signed.identifier .artifactId = .ok artifact ∧
        (depth = 0 → ∀ i ∈ artifact, checkArtifactState r.artifacts v.signed i = .ok ()) ∧
        (o.validateContract = true → checkContract r.contracts v.signed artifact = .ok ()) ∧
        v.signer = a.signer ∧ v.signed.visible = a.visible := by
  obtain ⟨signer, visible, chainDepth⟩ := a
  unfold check
  simp only [bind_eq_ok_iff, structural_eq_ok_iff, pure_eq_ok]
  constructor
  · rintro ⟨v, hv, n, hn, artifact, ha, h⟩
    cases artifact with
    | none =>
      simp only [ite_self, ite_bind_eq_ok_iff, Except.ok.injEq, Attestation.mk.injEq] at h
      obtain ⟨hcontract, rfl, rfl, rfl⟩ := h
      exact ⟨v, none, hv, hn, ha, by simp, hcontract, rfl, rfl⟩
    | some i =>
      simp only [ite_bind_eq_ok_iff, Except.ok.injEq, Attestation.mk.injEq] at h
      obtain ⟨hstate, hcontract, rfl, rfl, rfl⟩ := h
      exact ⟨v, some i, hv, hn, ha, by simpa using hstate, hcontract, rfl, rfl⟩
  · rintro ⟨v, artifact, hv, hn, ha, hstate, hcontract, rfl, rfl⟩
    refine ⟨v, hv, chainDepth, hn, artifact, ha, ?_⟩
    cases artifact with
    | none =>
      simp only [ite_self]
      exact ite_bind_eq_ok_iff.mpr ⟨hcontract, rfl⟩
    | some i =>
      exact ite_bind_eq_ok_iff.mpr ⟨fun hd => hstate hd i rfl,
        ite_bind_eq_ok_iff.mpr ⟨hcontract, rfl⟩⟩

/-! What attesting makes of a verdict. -/

theorem attest_fst : (c.attest suite r o).1 = c.attestation suite r o := by
  unfold Certificate.attest
  cases c.attestation suite r o <;> rfl

theorem attest_eq_ok_iff {d : Certificate} :
    c.attest suite r o = (.ok a, d) ↔ c.attestation suite r o = .ok a ∧ d = c.narrow a.visible := by
  unfold Certificate.attest
  cases c.attestation suite r o with
  | error e => simp
  | ok b =>
    simp only [Prod.mk.injEq, Except.ok.injEq]
    constructor
    · rintro ⟨rfl, rfl⟩
      exact ⟨rfl, rfl⟩
    · rintro ⟨rfl, rfl⟩
      exact ⟨rfl, rfl⟩

end Attestation

end SignedLedger
