import SignedLedger.Proofs.AttestationChecks

/-! What the checks of an attestation refuse. They come in a fixed order: the error is that of the
first check that fails, after the ones before it have been passed. -/

namespace SignedLedger

namespace Attestation

/-- Why the signature of a certificate is not accepted. -/
inductive Unverified (suite : Suite) (entities : EntityResolver) (height : UInt64)
    (c : Certificate) : AttestationError → Prop
  | signerUnreadable {cause : CertificateError}
    (h : (c.identifier .signerId : Except _ (Option EntityId)) = .error cause) :
    Unverified suite entities height c (.structural cause)
  | signerMissing (h : c.identifier .signerId = .ok (none : Option EntityId)) :
    Unverified suite entities height c .missingSignerId
  | signatureUnreadable {signer : EntityId} {cause : CodecError}
    (hs : c.identifier .signerId = .ok (some signer)) (h : c.field .signature = .error cause) :
    Unverified suite entities height c (.structural (.codec cause))
  | signatureMissing {signer : EntityId} (hs : c.identifier .signerId = .ok (some signer))
    (h : c.field .signature = .ok none) : Unverified suite entities height c .missingSignature
  | keysUnresolved {signer : EntityId} {g : Field} {cause : ResolverError}
    (hs : c.identifier .signerId = .ok (some signer)) (hg : c.field .signature = .ok (some g))
    (h : entities signer height = .error cause) :
    Unverified suite entities height c (.resolver cause)
  | keyMissing {signer : EntityId} {g : Field} {keys : EntityKeys}
    (hs : c.identifier .signerId = .ok (some signer)) (hg : c.field .signature = .ok (some g))
    (hk : entities signer height = .ok keys) (h : keys.signing = []) :
    Unverified suite entities height c (.missingSigningKey signer)
  | authorUnreadable {signer : EntityId} {g : Field} {keys : EntityKeys} {cause : CertificateError}
    (hs : c.identifier .signerId = .ok (some signer)) (hg : c.field .signature = .ok (some g))
    (hk : entities signer height = .ok keys) (hne : keys.signing ≠ [])
    (h : ((c.narrow g.stop).identifier .authorId : Except _ (Option EntityId)) = .error cause) :
    Unverified suite entities height c (.structural cause)
  | authorDiffers {signer declared : EntityId} {g : Field} {keys : EntityKeys}
    (hs : c.identifier .signerId = .ok (some signer)) (hg : c.field .signature = .ok (some g))
    (hk : entities signer height = .ok keys) (hne : keys.signing ≠ [])
    (h : (c.narrow g.stop).identifier .authorId = .ok (some declared)) (hd : declared ≠ signer) :
    Unverified suite entities height c (.authorMismatch declared signer)
  | mismatch {signer : EntityId} {f g : Field} {keys : EntityKeys}
    (hf : c.field .signerId = .ok (some f)) (hs : f.value = signer.bytes)
    (hg : c.field .signature = .ok (some g)) (hk : entities signer height = .ok keys)
    (hne : keys.signing ≠ [])
    (ha : (c.narrow g.stop).identifier .authorId = .ok (none : Option EntityId) ∨
      (c.narrow g.stop).identifier .authorId = .ok (some signer))
    (h : ¬ (f.stop ≤ g.offset ∧ suite.verify keys.signing g.value (c.raw.take g.offset) = true)) :
    Unverified suite entities height c .signatureMismatch

/-- Why a certificate does not agree with the state of its artifact. -/
inductive Displaced (artifacts : ArtifactResolver) (signed : Certificate) (a : ArtifactId) :
    AttestationError → Prop
  | previousUnreadable {cause : CertificateError}
    (h : (signed.identifier .previousTransactionId : Except _ (Option TransactionId)) =
      .error cause) :
    Displaced artifacts signed a (.structural cause)
  | stateUnresolved {previous : Option TransactionId} {cause : ResolverError}
    (hp : signed.identifier .previousTransactionId = .ok previous)
    (h : artifacts a = .error cause) : Displaced artifacts signed a (.resolver cause)
  | stateDiffers {previous latest : Option TransactionId}
    (hp : signed.identifier .previousTransactionId = .ok previous) (hl : artifacts a = .ok latest)
    (h : previous.getD .nil ≠ latest.getD .nil) :
    Displaced artifacts signed a (.artifactConflict a (latest.getD .nil) (previous.getD .nil))

/-- Why no contract accepts a certificate. -/
inductive Disallowed (contracts : ContractResolver) (signed : Certificate)
    (artifact : Option ArtifactId) : AttestationError → Prop
  | typeUnreadable {cause : CertificateError} (h : signed.certificateType = .error cause) :
    Disallowed contracts signed artifact (.structural cause)
  | typeMissing (h : signed.certificateType = .ok none) :
    Disallowed contracts signed artifact .missingTransactionType
  | contractMissing {type : CertificateType} (ht : signed.certificateType = .ok (some type))
    (h : contracts type artifact = none) :
    Disallowed contracts signed artifact (.missingContract type artifact)
  | contractRefuses {type : CertificateType} {contract : Contract} {reason : String}
    (ht : signed.certificateType = .ok (some type)) (hc : contracts type artifact = some contract)
    (h : contract signed = .error reason) :
    Disallowed contracts signed artifact (.contractFailure reason)

/-- What is checked of a verified certificate once its chain is trusted. -/
def settle (r : Resolvers) (o : AttestOptions) (depth : Nat) (signed : Certificate) :
    Except AttestationError Unit := do
  let artifact ← structural (signed.identifier .artifactId)
  if depth = 0 then
    if let some a := artifact then checkArtifactState r.artifacts signed a
  if o.validateContract then checkContract r.contracts signed artifact

/-- That the certificate declares the latest transaction of the artifact as the one before. -/
def Current (artifacts : ArtifactResolver) (signed : Certificate) (i : ArtifactId) : Prop :=
  ∃ previous latest : Option TransactionId,
    signed.identifier .previousTransactionId = .ok previous ∧ artifacts i = .ok latest ∧
      previous.getD .nil = latest.getD .nil

/-- Why a verified certificate with a trusted chain fails. Only the outermost certificate has to
agree with the state of its artifact. -/
inductive Unsettled (r : Resolvers) (o : AttestOptions) (depth : Nat) (signed : Certificate) :
    AttestationError → Prop
  | artifactUnreadable {cause : CertificateError}
    (h : (signed.identifier .artifactId : Except _ (Option ArtifactId)) = .error cause) :
    Unsettled r o depth signed (.structural cause)
  | displaced {i : ArtifactId} {e : AttestationError}
    (ha : signed.identifier .artifactId = .ok (some i)) (hd : depth = 0)
    (h : Displaced r.artifacts signed i e) : Unsettled r o depth signed e
  | disallowed {artifact : Option ArtifactId} {e : AttestationError}
    (ha : signed.identifier .artifactId = .ok artifact)
    (hs : depth = 0 → ∀ i ∈ artifact, Current r.artifacts signed i)
    (ho : o.validateContract = true) (h : Disallowed r.contracts signed artifact e) :
    Unsettled r o depth signed e

variable {suite : Suite} {r : Resolvers} {o : AttestOptions} {depth : Nat} {c : Certificate}
variable {entities : EntityResolver} {height : UInt64} {artifacts : ArtifactResolver}
variable {contracts : ContractResolver} {artifact : Option ArtifactId} {i : ArtifactId}
variable {e : AttestationError}

section

variable {f g : Field} {signer : EntityId} (hf : c.field .signerId = .ok (some f))
  (hs : f.value = signer.bytes) (hg : c.field .signature = .ok (some g))

include hf hs hg

/-- What the verification comes down to where the signer and the signature can be read. -/
theorem verify_of_signature :
    verify suite entities height c = (do
      let keys ← (entities signer height).mapError .resolver
      if keys.signing = [] then .error (.missingSigningKey signer)
      else do
        let declared ← structural ((c.narrow g.stop).identifier .authorId)
        if ∀ d ∈ declared, d = signer then
          if f.stop ≤ g.offset ∧ suite.verify keys.signing g.value (c.raw.take g.offset) = true then
            .ok ⟨signer, c.narrow g.stop⟩
          else .error .signatureMismatch
        else .error (.authorMismatch (declared.getD signer) signer)) := by
  have hv : Identifier.ofField .signerId f.value = .ok signer := Identifier.ofField_eq_ok_iff.mpr hs
  have hlast : ∀ keys : EntityKeys, (if decide (g.offset < f.stop) ||
        !suite.verify keys.signing g.value (c.raw.take g.offset) then
          Except.error AttestationError.signatureMismatch
        else .ok (⟨signer, c.narrow g.stop⟩ : Verified)) =
      if f.stop ≤ g.offset ∧ suite.verify keys.signing g.value (c.raw.take g.offset) = true then
        .ok ⟨signer, c.narrow g.stop⟩
      else .error .signatureMismatch := by
    intro keys
    by_cases hc : f.stop ≤ g.offset
    · cases suite.verify keys.signing g.value (c.raw.take g.offset) <;> simp [hc, Nat.not_lt.mpr hc]
    · simp [hc, Nat.not_le.mp hc]
  unfold verify
  simp only [hf, hv, hg, Certificate.signedRegion, liftCodec_ok, structural_ok, map_ok,
    Option.map_some, ok_bind, throw_eq_error, error_bind, pure_eq_ok, hlast]
  congr 1
  funext keys
  congr 1
  rcases (c.narrow g.stop).identifier .authorId with cause | _ | declared
  · rfl
  · simp
  · by_cases hd : declared = signer <;> simp [hd]

theorem unverified_of_signature (h : verify suite entities height c = .error e) :
    Unverified suite entities height c e := by
  have hsigner : c.identifier .signerId = .ok (some signer) :=
    (Certificate.identifier_eq_some_iff _).mpr ⟨f, hf, hs⟩
  rw [verify_of_signature hf hs hg] at h
  rcases bind_eq_error_iff.mp h with h | ⟨keys, hk, h⟩
  · obtain ⟨cause, hk, rfl⟩ := mapError_eq_error_iff.mp h
    exact .keysUnresolved hsigner hg hk
  have hk := mapError_eq_ok_iff.mp hk
  by_cases hne : keys.signing = []
  · rw [if_pos hne] at h
    cases h
    exact .keyMissing hsigner hg hk hne
  rw [if_neg hne] at h
  rcases bind_eq_error_iff.mp h with h | ⟨declared, ha, h⟩
  · obtain ⟨cause, ha, rfl⟩ := mapError_eq_error_iff.mp h
    exact .authorUnreadable hsigner hg hk hne ha
  have ha := structural_eq_ok_iff.mp ha
  by_cases hd : ∀ d ∈ declared, d = signer
  · rw [if_pos hd] at h
    by_cases hc : f.stop ≤ g.offset ∧ suite.verify keys.signing g.value (c.raw.take g.offset) = true
    · rw [if_pos hc] at h
      cases h
    · rw [if_neg hc] at h
      cases h
      refine .mismatch hf hs hg hk hne ?_ hc
      cases declared with
      | none => exact .inl ha
      | some d => exact .inr (hd d rfl ▸ ha)
  · rw [if_neg hd] at h
    cases h
    cases declared with
    | none => exact absurd (by simp) hd
    | some d =>
      have hne' : d ≠ signer := fun heq => hd (by simp [heq])
      exact .authorDiffers hsigner hg hk hne ha hne'

end

theorem unverified_of_verify_eq_error (h : verify suite entities height c = .error e) :
    Unverified suite entities height c e := by
  rcases hf : c.field .signerId with cause | _ | f
  · simp only [verify, hf] at h
    cases h
    exact .signerUnreadable (by simp [Certificate.identifier, hf])
  · simp only [verify, hf] at h
    cases h
    exact .signerMissing (by simp [Certificate.identifier, hf])
  cases hv : (Identifier.ofField .signerId f.value : Except _ EntityId) with
  | error cause =>
    simp only [verify, hf, hv, liftCodec_ok, structural_ok, ok_bind] at h
    cases h
    exact .signerUnreadable (by simp [Certificate.identifier, hf, hv])
  | ok signer =>
    have hs : c.identifier .signerId = .ok (some signer) := by
      simp [Certificate.identifier, hf, hv]
    rcases hg : c.field .signature with cause | _ | g
    · simp only [verify, hf, hv, hg, liftCodec_ok, structural_ok, ok_bind,
        Certificate.signedRegion] at h
      cases h
      exact .signatureUnreadable hs hg
    · simp only [verify, hf, hv, hg, liftCodec_ok, structural_ok, ok_bind,
        Certificate.signedRegion] at h
      cases h
      exact .signatureMissing hs hg
    · exact unverified_of_signature hf (Identifier.ofField_eq_ok_iff.mp hv) hg h

theorem verify_of_signer_error {cause : CertificateError}
    (h : (c.identifier .signerId : Except _ (Option EntityId)) = .error cause) :
    verify suite entities height c = .error (.structural cause) := by
  unfold Certificate.identifier at h
  rcases hf : c.field .signerId with cause | _ | f
  · rw [hf] at h
    cases h
    simp [verify, hf]
  · rw [hf] at h
    cases h
  · cases hv : (Identifier.ofField .signerId f.value : Except _ EntityId) with
    | error cause =>
      simp only [hf, hv, liftCodec_ok, ok_bind, error_bind] at h
      cases h
      simp [verify, hf, hv]
    | ok signer => simp [hf, hv] at h

theorem verify_of_signer_none (h : c.identifier .signerId = .ok (none : Option EntityId)) :
    verify suite entities height c = .error .missingSignerId := by
  unfold Certificate.identifier at h
  rcases hf : c.field .signerId with cause | _ | f
  · simp [hf] at h
  · simp [verify, hf]
  · cases hv : (Identifier.ofField .signerId f.value : Except _ EntityId) <;> simp [hf, hv] at h

theorem Unverified.verify_eq_error (h : Unverified suite entities height c e) :
    verify suite entities height c = .error e := by
  cases h with
  | signerUnreadable h => exact verify_of_signer_error h
  | signerMissing h => exact verify_of_signer_none h
  | signatureUnreadable hs h =>
    obtain ⟨f, hf, hv⟩ := (Certificate.identifier_eq_some_iff _).mp hs
    simp [verify, hf, Identifier.ofField_eq_ok_iff.mpr hv, h, Certificate.signedRegion]
  | signatureMissing hs h =>
    obtain ⟨f, hf, hv⟩ := (Certificate.identifier_eq_some_iff _).mp hs
    simp [verify, hf, Identifier.ofField_eq_ok_iff.mpr hv, h, Certificate.signedRegion]
  | keysUnresolved hs hg h =>
    obtain ⟨f, hf, hv⟩ := (Certificate.identifier_eq_some_iff _).mp hs
    rw [verify_of_signature hf hv hg, h]
    rfl
  | keyMissing hs hg hk h =>
    obtain ⟨f, hf, hv⟩ := (Certificate.identifier_eq_some_iff _).mp hs
    rw [verify_of_signature hf hv hg, hk, mapError_ok, ok_bind, if_pos h]
  | authorUnreadable hs hg hk hne h =>
    obtain ⟨f, hf, hv⟩ := (Certificate.identifier_eq_some_iff _).mp hs
    rw [verify_of_signature hf hv hg, hk, mapError_ok, ok_bind, if_neg hne, h]
    rfl
  | authorDiffers hs hg hk hne h hd =>
    obtain ⟨f, hf, hv⟩ := (Certificate.identifier_eq_some_iff _).mp hs
    rw [verify_of_signature hf hv hg, hk, mapError_ok, ok_bind, if_neg hne, h]
    simp [hd]
  | mismatch hf hv hg hk hne ha h =>
    rw [verify_of_signature hf hv hg, hk, mapError_ok, ok_bind, if_neg hne, if_neg h]
    rcases ha with ha | ha <;> simp [ha]

theorem verify_eq_error_iff :
    verify suite entities height c = .error e ↔ Unverified suite entities height c e :=
  ⟨unverified_of_verify_eq_error, Unverified.verify_eq_error⟩

theorem checkArtifactState_eq_error_iff :
    checkArtifactState artifacts c i = .error e ↔ Displaced artifacts c i e := by
  unfold checkArtifactState
  constructor
  · intro h
    cases hp : (c.identifier .previousTransactionId : Except _ (Option TransactionId)) with
    | error cause =>
      rw [hp] at h
      cases h
      exact .previousUnreadable hp
    | ok previous =>
      cases hl : artifacts i with
      | error cause =>
        rw [hp, hl] at h
        cases h
        exact .stateUnresolved hp hl
      | ok latest =>
        rw [hp, hl] at h
        simp only [structural_ok, ok_bind, mapError_ok] at h
        split at h
        · rename_i hne
          cases h
          exact .stateDiffers hp hl hne
        · cases h
  · intro h
    cases h with
    | previousUnreadable h => simp [h]
    | stateUnresolved hp h => simp [hp, h]
    | stateDiffers hp hl h => simp [hp, hl, h]

theorem checkContract_eq_error_iff :
    checkContract contracts c artifact = .error e ↔ Disallowed contracts c artifact e := by
  unfold checkContract
  constructor
  · intro h
    rcases ht : c.certificateType with cause | _ | type
    · rw [ht] at h
      cases h
      exact .typeUnreadable ht
    · rw [ht] at h
      cases h
      exact .typeMissing ht
    · rw [ht] at h
      cases hc : contracts type artifact with
      | none =>
        simp only [structural_ok, ok_bind, hc] at h
        cases h
        exact .contractMissing ht hc
      | some contract =>
        simp only [structural_ok, ok_bind, hc] at h
        obtain ⟨reason, hreason, rfl⟩ := mapError_eq_error_iff.mp h
        exact .contractRefuses ht hc hreason
  · intro h
    cases h with
    | typeUnreadable h => simp [h]
    | typeMissing h => simp [h]
    | contractMissing ht h => simp [ht, h]
    | contractRefuses ht hc h => simp [ht, hc, h]

theorem settle_eq_error_iff {signed : Certificate} :
    settle r o depth signed = .error e ↔ Unsettled r o depth signed e := by
  have hcontract : ∀ artifact : Option ArtifactId,
      (if o.validateContract then checkContract r.contracts signed artifact else pure ()) =
          .error e ↔ o.validateContract = true ∧ Disallowed r.contracts signed artifact e := by
    intro artifact
    rw [← checkContract_eq_error_iff]
    by_cases ho : o.validateContract = true <;> simp [ho]
  have hstate : ∀ i, checkArtifactState r.artifacts signed i = .ok () ↔
      Current r.artifacts signed i := fun i => checkArtifactState_eq_ok_iff
  constructor
  · intro h
    cases ha : (signed.identifier .artifactId : Except _ (Option ArtifactId)) with
    | error cause =>
      rw [settle, ha] at h
      cases h
      exact .artifactUnreadable ha
    | ok artifact =>
      rw [settle, ha, structural_ok, ok_bind] at h
      by_cases hd : depth = 0
      · rw [if_pos hd] at h
        cases artifact with
        | none =>
          obtain ⟨ho, hc⟩ := (hcontract none).mp h
          exact .disallowed ha (by simp) ho hc
        | some i =>
          rcases bind_eq_error_iff.mp h with h | ⟨_, hok, h⟩
          · exact .displaced ha hd (checkArtifactState_eq_error_iff.mp h)
          · obtain ⟨ho, hc⟩ := (hcontract (some i)).mp h
            refine .disallowed ha (fun _ j hj => ?_) ho hc
            obtain rfl := Option.some.inj hj
            exact (hstate i).mp hok
      · rw [if_neg hd] at h
        obtain ⟨ho, hc⟩ := (hcontract artifact).mp h
        exact .disallowed ha (fun h0 => absurd h0 hd) ho hc
  · intro h
    cases h with
    | artifactUnreadable h => simp [settle, h]
    | displaced ha hd h =>
      rw [settle, ha, structural_ok, ok_bind, if_pos hd]
      exact bind_eq_error_iff.mpr (.inl (checkArtifactState_eq_error_iff.mpr h))
    | @disallowed artifact _ ha hs ho h =>
      rw [settle, ha, structural_ok, ok_bind]
      by_cases hd : depth = 0
      · rw [if_pos hd]
        cases artifact with
        | none => exact (hcontract none).mpr ⟨ho, h⟩
        | some i =>
          have hok := (hstate i).mpr (hs hd i rfl)
          exact bind_eq_error_iff.mpr (.inr ⟨(), hok, (hcontract (some i)).mpr ⟨ho, h⟩⟩)
      · rw [if_neg hd]
        exact (hcontract artifact).mpr ⟨ho, h⟩

theorem check_eq_settle {attestNested : Certificate → Except AttestationError Nat} :
    check suite r o depth attestNested c = (do
      let v ← verify suite r.entities o.height c
      let chainDepth ← chainDepthOf attestNested v.signed
      settle r o depth v.signed
      pure ⟨v.signer, v.signed.visible, chainDepth⟩) := by
  unfold check settle
  congr 1
  funext v
  congr 1
  funext n
  cases (v.signed.identifier .artifactId : Except _ (Option ArtifactId)) with
  | error cause => rfl
  | ok artifact =>
    by_cases hd : depth = 0
    · by_cases ho : o.validateContract = true
      · cases artifact with
        | none => simp [hd, ho]
        | some i => simp [hd, ho]
      · cases artifact <;> simp [hd, ho]
    · by_cases ho : o.validateContract = true <;> simp [hd, ho]

theorem chainDepthOf_eq_error_iff {attestNested : Certificate → Except AttestationError Nat} :
    chainDepthOf attestNested c = .error e ↔
      (∃ cause, c.field .chainCertificate = .error cause ∧ .structural (.codec cause) = e) ∨
        ∃ f, c.field .chainCertificate = .ok (some f) ∧ attestNested f.nested = .error e := by
  unfold chainDepthOf
  rcases c.field .chainCertificate with cause | _ | f
  · simp
  · simp
  · simp

end Attestation

end SignedLedger
