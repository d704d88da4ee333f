import SignedLedger.Proofs.AttestationFaults
import SignedLedger.Proofs.TrustedCertificate

/-! How an attestation fails. In a chain of nested certificates it is the innermost one that is
reached which fails for a reason of its own, the first of its checks that fails. Each certificate
around it adds the depth of what it nests to the error. -/

namespace SignedLedger

namespace AttestationError

/-- The error as it comes out of `k` certificates, the outermost of them at `depth`. -/
def wrapped (cause : AttestationError) (depth : Nat) : Nat → AttestationError
  | 0 => cause
  | k + 1 => .chainFailure (depth + 1) (cause.wrapped (depth + 1) k)

def Bare (e : AttestationError) : Prop :=
  ∀ depth source, e ≠ .chainFailure depth source

def PassedOn (e : AttestationError) : Prop :=
  ∃ entity, e = .resolver (.missingSigningCertificate entity)

variable {cause e : AttestationError} {depth k : Nat}

theorem Bare.rootCause_eq (h : e.Bare) : e.rootCause = e := by
  cases e with
  | chainFailure depth source => exact absurd rfl (h depth source)
  | _ => rfl

theorem rootCause_wrapped (cause : AttestationError) (depth k : Nat) :
    (cause.wrapped depth k).rootCause = cause.rootCause := by
  induction k generalizing depth with
  | zero => rfl
  | succ k ih => exact ih (depth + 1)

theorem wrapFailure_of_passedOn (h : e.PassedOn) : Attestation.wrapFailure depth e = e := by
  obtain ⟨entity, rfl⟩ := h
  rfl

theorem wrapFailure_of_not_passedOn (h : ¬ e.PassedOn) :
    Attestation.wrapFailure depth e = .chainFailure depth e := by
  unfold Attestation.wrapFailure
  split
  · rename_i entity
    exact absurd ⟨entity, rfl⟩ h
  · rfl

theorem not_passedOn_wrapped (h : ¬ cause.PassedOn) : ¬ (cause.wrapped depth k).PassedOn := by
  cases k with
  | zero => exact h
  | succ k =>
    rintro ⟨entity, he⟩
    cases he

end AttestationError

namespace Attestation

/-- That `c` is verified as `v`, and nests no certificate but a trusted one. -/
structure Backed (suite : Suite) (r : Resolvers) (o : AttestOptions) (depth : Nat) (c : Certificate)
    (v : Verified) : Prop where
  verified : ∃ f g k, Verifies suite r.entities o.height c v f g k
  chain : v.signed.field .chainCertificate = .ok none ∨
    ∃ f a, v.signed.field .chainCertificate = .ok (some f) ∧ depth < maxChainDepth ∧
      Trusted suite r o (depth + 1) f.nested a

/-- The first check of `c` itself that fails, at a depth of nesting. -/
inductive Fault (suite : Suite) (r : Resolvers) (o : AttestOptions) (depth : Nat)
    (c : Certificate) : AttestationError → Prop
  | unverified {e : AttestationError} (h : Unverified suite r.entities o.height c e) :
    Fault suite r o depth c e
  | chainUnreadable {v : Verified} {f g : Field} {k : EntityKeys} {cause : CodecError}
    (hv : Verifies suite r.entities o.height c v f g k)
    (h : v.signed.field .chainCertificate = .error cause) :
    Fault suite r o depth c (.structural (.codec cause))
  | chainTooDeep {v : Verified} {f g nested : Field} {k : EntityKeys}
    (hv : Verifies suite r.entities o.height c v f g k)
    (h : v.signed.field .chainCertificate = .ok (some nested)) (hd : maxChainDepth ≤ depth) :
    Fault suite r o depth c (.chainTooDeep maxChainDepth)
  | unsettled {v : Verified} {e : AttestationError} (hb : Backed suite r o depth c v)
    (h : Unsettled r o depth v.signed e) : Fault suite r o depth c e

/-- Why `c` is not trusted at a depth of nesting: for a fault of its own, or for the failure of the
certificate that it nests. -/
inductive Fails (suite : Suite) (r : Resolvers) (o : AttestOptions) :
    Nat → Certificate → AttestationError → Prop
  | fault {depth : Nat} {c : Certificate} {e : AttestationError} (h : Fault suite r o depth c e) :
    Fails suite r o depth c e
  | nested {depth : Nat} {c : Certificate} {e : AttestationError} {v : Verified}
    {f g nested : Field} {k : EntityKeys} (hv : Verifies suite r.entities o.height c v f g k)
    (hc : v.signed.field .chainCertificate = .ok (some nested)) (hd : depth < maxChainDepth)
    (hn : Fails suite r o (depth + 1) nested.nested e) :
    Fails suite r o depth c (wrapFailure (depth + 1) e)

variable {suite : Suite} {r : Resolvers} {o : AttestOptions} {depth levels k n : Nat}
variable {c d : Certificate} {e cause : AttestationError}

section

/-! One certificate, where what attests the nested ones is known to succeed for the trusted ones and to
fail as they do. -/

variable {attestNested : Certificate → Except AttestationError Nat}
variable (hok : ∀ d, (∃ n, attestNested d = .ok n) ↔
  depth < maxChainDepth ∧ ∃ a, Trusted suite r o (depth + 1) d a)
variable (herror : ∀ d e, attestNested d = .error e ↔
  maxChainDepth ≤ depth ∧ .chainTooDeep maxChainDepth = e ∨
    depth < maxChainDepth ∧ ∃ cause, Fails suite r o (depth + 1) d cause ∧
      wrapFailure (depth + 1) cause = e)

include hok herror

theorem fails_of_check_eq_error (h : check suite r o depth attestNested c = .error e) :
    Fails suite r o depth c e := by
  rw [check_eq_settle] at h
  rcases bind_eq_error_iff.mp h with h | ⟨v, hv, h⟩
  · exact .fault (.unverified (verify_eq_error_iff.mp h))
  obtain ⟨f, g, k, hverifies⟩ := verify_eq_ok_iff.mp hv
  rcases bind_eq_error_iff.mp h with h | ⟨n, hn, h⟩
  · rcases chainDepthOf_eq_error_iff.mp h with ⟨cause, hc, rfl⟩ | ⟨nested, hc, hnested⟩
    · exact .fault (.chainUnreadable hverifies hc)
    · rcases (herror _ _).mp hnested with ⟨hd, rfl⟩ | ⟨hd, cause, hfails, rfl⟩
      · exact .fault (.chainTooDeep hverifies hc hd)
      · exact .nested hverifies hc hd hfails
  · rcases bind_eq_error_iff.mp h with h | ⟨_, _, h⟩
    · refine .fault (.unsettled ⟨⟨f, g, k, hverifies⟩, ?_⟩ (settle_eq_error_iff.mp h))
      rcases chainDepthOf_eq_ok_iff.mp hn with ⟨hc, _⟩ | ⟨nested, hc, hn⟩
      · exact .inl hc
      · obtain ⟨hd, a, ha⟩ := (hok _).mp ⟨n, hn⟩
        exact .inr ⟨nested, a, hc, hd, ha⟩
    · cases h

theorem Fails.check_eq_error (h : Fails suite r o depth c e) :
    check suite r o depth attestNested c = .error e := by
  have hverify : ∀ {v f g k}, Verifies suite r.entities o.height c v f g k →
      verify suite r.entities o.height c = .ok v :=
    fun hv => verify_eq_ok_iff.mpr ⟨_, _, _, hv⟩
  have hchain : ∀ {v f g k}, Verifies suite r.entities o.height c v f g k →
      chainDepthOf attestNested v.signed = .error e →
      check suite r o depth attestNested c = .error e := by
    intro v f g k hv hc
    rw [check_eq_settle, hverify hv, ok_bind, hc, error_bind]
  cases h with
  | nested hv hc hd hn =>
    have hnested := (herror _ _).mpr (.inr ⟨hd, _, hn, rfl⟩)
    exact hchain hv (chainDepthOf_eq_error_iff.mpr (.inr ⟨_, hc, hnested⟩))
  | fault h =>
    cases h with
    | unverified h => rw [check_eq_settle, verify_eq_error_iff.mpr h, error_bind]
    | chainUnreadable hv hc =>
      exact hchain hv (chainDepthOf_eq_error_iff.mpr (.inl ⟨_, hc, rfl⟩))
    | @chainTooDeep _ _ _ nested _ hv hc hd =>
      have hnested := (herror nested.nested _).mpr (.inl ⟨hd, rfl⟩)
      exact hchain hv (chainDepthOf_eq_error_iff.mpr (.inr ⟨_, hc, hnested⟩))
    | @unsettled v _ hb h =>
      obtain ⟨⟨f, g, k, hv⟩, hbacked⟩ := hb
      have hdepth : ∃ n, chainDepthOf attestNested v.signed = .ok n := by
        rcases hbacked with hc | ⟨nested, a, hc, hd, ha⟩
        · exact ⟨0, chainDepthOf_eq_ok_iff.mpr (.inl ⟨hc, rfl⟩)⟩
        · obtain ⟨n, hn⟩ := (hok nested.nested).mpr ⟨hd, a, ha⟩
          exact ⟨n, chainDepthOf_eq_ok_iff.mpr (.inr ⟨nested, hc, hn⟩)⟩
      obtain ⟨n, hn⟩ := hdepth
      rw [check_eq_settle, hverify hv, ok_bind, hn, ok_bind, settle_eq_error_iff.mpr h, error_bind]

theorem check_eq_error_iff_fails :
    check suite r o depth attestNested c = .error e ↔ Fails suite r o depth c e :=
  ⟨fails_of_check_eq_error hok herror, Fails.check_eq_error hok herror⟩

end

theorem attestAt_eq_error_iff_fails (hl : levels ≤ maxChainDepth) :
    attestAt suite r o levels c = .error e ↔ Fails suite r o (maxChainDepth - levels) c e := by
  induction levels generalizing c e with
  | zero =>
    rw [attestAt, Nat.sub_zero]
    apply check_eq_error_iff_fails
    · intro d
      simp
    · intro d e
      simp
  | succ levels ih =>
    have hle : levels ≤ maxChainDepth := Nat.le_of_succ_le hl
    have hlt : maxChainDepth - (levels + 1) < maxChainDepth := by omega
    have hdepth : maxChainDepth - (levels + 1) + 1 = maxChainDepth - levels := by omega
    rw [attestAt]
    apply check_eq_error_iff_fails
    · intro d
      rw [hdepth]
      simp only [← attestAt_eq_ok_iff_trusted hle, hlt, true_and]
      cases attestAt suite r o levels d <;> simp
    · intro d e
      rw [hdepth]
      simp only [← ih hle, hlt, true_and, Nat.not_le.mpr hlt, false_and, false_or]
      cases attestAt suite r o levels d <;> simp

/-! The shape of a failure. -/

/-- That `d` is nested `n` deep in `c`, and that every certificate around it is verified. -/
inductive Nested (suite : Suite) (r : Resolvers) (o : AttestOptions) :
    Nat → Certificate → Certificate → Prop
  | refl (c : Certificate) : Nested suite r o 0 c c
  | step {n : Nat} {c d : Certificate} {v : Verified} {f g nested : Field} {k : EntityKeys}
    (hv : Verifies suite r.entities o.height c v f g k)
    (hc : v.signed.field .chainCertificate = .ok (some nested))
    (hn : Nested suite r o n nested.nested d) : Nested suite r o (n + 1) c d

/-- That the signer of `c` is known to have no signing certificate. -/
def LacksCertificate (entities : EntityResolver) (height : UInt64) (c : Certificate)
    (entity : EntityId) : Prop :=
  ∃ signer g, c.identifier .signerId = .ok (some signer) ∧ c.field .signature = .ok (some g) ∧
    entities signer height = .error (.missingSigningCertificate entity)

/-- That `e` is the error `cause` as it comes out of `k` certificates: the first check that fails of
the certificate nested `k` deep, or that some signer has no signing certificate. -/
structure FailsAt (suite : Suite) (r : Resolvers) (o : AttestOptions) (c : Certificate) (k : Nat)
    (cause e : AttestationError) : Prop where
  wrapped : e = cause.wrapped 0 k
  depth : k ≤ maxChainDepth
  bare : cause.Bare
  rootCause : e.rootCause = cause
  passedOn : 0 < k → ¬ cause.PassedOn
  conflict : 0 < k → ∀ a expected declared, cause ≠ .artifactConflict a expected declared
  tooDeep : ∀ limit, cause = .chainTooDeep limit → k = maxChainDepth
  origin : (∃ d, Nested suite r o k c d ∧ Fault suite r o k d cause) ∨
    k = 0 ∧ ∃ n d entity, n ≤ maxChainDepth ∧ Nested suite r o n c d ∧
      LacksCertificate r.entities o.height d entity ∧
      cause = .resolver (.missingSigningCertificate entity)

/-- How the attestation of `c` fails. -/
structure ReportsFailure (suite : Suite) (r : Resolvers) (o : AttestOptions) (c : Certificate) :
    Prop where
  fails : ∀ e, (c.attest suite r o).1 = .error e ↔ ∃ k cause, FailsAt suite r o c k cause e
  passedOn : ∀ n d entity, n ≤ maxChainDepth → Nested suite r o n c d →
    LacksCertificate r.entities o.height d entity →
    (c.attest suite r o).1 = .error (.resolver (.missingSigningCertificate entity))

theorem Fault.bare (h : Fault suite r o depth c e) : e.Bare := by
  intro d source he
  subst he
  cases h with
  | unverified h => cases h
  | unsettled _ h =>
    cases h with
    | displaced _ _ h => cases h
    | disallowed _ _ _ h => cases h

theorem Fault.depth_eq_zero {a : ArtifactId} {expected declared : TransactionId}
    (h : Fault suite r o depth c (.artifactConflict a expected declared)) : depth = 0 := by
  cases h with
  | unverified h => cases h
  | unsettled _ h =>
    cases h with
    | displaced _ hd _ => exact hd
    | disallowed _ _ _ h => cases h

theorem Fault.maxChainDepth_le {limit : Nat} (h : Fault suite r o depth c (.chainTooDeep limit)) :
    maxChainDepth ≤ depth := by
  cases h with
  | unverified h => cases h
  | chainTooDeep _ _ hd => exact hd
  | unsettled _ h =>
    cases h with
    | displaced _ _ h => cases h
    | disallowed _ _ _ h => cases h

theorem Fault.lacksCertificate {entity : EntityId} (hd : 0 < depth)
    (h : Fault suite r o depth c (.resolver (.missingSigningCertificate entity))) :
    LacksCertificate r.entities o.height c entity := by
  cases h with
  | unverified h =>
    cases h with
    | keysUnresolved hs hg hk => exact ⟨_, _, hs, hg, hk⟩
  | unsettled _ h =>
    cases h with
    | displaced _ h0 _ => exact absurd h0 (Nat.ne_of_gt hd)
    | disallowed _ _ _ h => cases h

theorem LacksCertificate.fault {entity : EntityId}
    (h : LacksCertificate r.entities o.height c entity) :
    Fault suite r o depth c (.resolver (.missingSigningCertificate entity)) := by
  obtain ⟨signer, g, hs, hg, hk⟩ := h
  exact .unverified (.keysUnresolved hs hg hk)

/-- Some certificate of the chain has the fault that the chain fails for. -/
theorem Fails.exists_fault (h : Fails suite r o depth c e) (hd : depth ≤ maxChainDepth) :
    ∃ n d cause, depth + n ≤ maxChainDepth ∧ Nested suite r o n c d ∧
      Fault suite r o (depth + n) d cause ∧
      (cause.PassedOn ∧ e = cause ∨ ¬ cause.PassedOn ∧ e = cause.wrapped depth n) := by
  induction h with
  | @fault depth c e h =>
    refine ⟨0, c, e, hd, .refl c, h, ?_⟩
    by_cases hp : e.PassedOn
    · exact .inl ⟨hp, rfl⟩
    · exact .inr ⟨hp, rfl⟩
  | nested hv hc hlt _ ih =>
    obtain ⟨n, d, cause, hn, hnested, hfault, he⟩ := ih hlt
    rw [Nat.add_assoc, Nat.add_comm 1 n] at hn hfault
    refine ⟨n + 1, d, cause, hn, .step hv hc hnested, hfault, ?_⟩
    rcases he with ⟨hp, rfl⟩ | ⟨hp, rfl⟩
    · exact .inl ⟨hp, AttestationError.wrapFailure_of_passedOn hp⟩
    · refine .inr ⟨hp, AttestationError.wrapFailure_of_not_passedOn ?_⟩
      exact AttestationError.not_passedOn_wrapped hp

/-- The fault of a certificate that is reached makes the whole chain fail. -/
theorem Nested.fails (hn : Nested suite r o n c d) (hd : depth + n ≤ maxChainDepth)
    (hf : Fault suite r o (depth + n) d cause) :
    (cause.PassedOn → Fails suite r o depth c cause) ∧
      (¬ cause.PassedOn → Fails suite r o depth c (cause.wrapped depth n)) := by
  induction hn generalizing depth with
  | refl c => exact ⟨fun _ => .fault hf, fun _ => .fault hf⟩
  | @step n c d v f g nested k hv hc _ ih =>
    have hsum : depth + (n + 1) = depth + 1 + n := by omega
    rw [hsum] at hd hf
    obtain ⟨hpassed, hwrapped⟩ := ih hd hf
    have hlt : depth < maxChainDepth := by omega
    constructor
    · intro hp
      have hfails := Fails.nested hv hc hlt (hpassed hp)
      rwa [AttestationError.wrapFailure_of_passedOn hp] at hfails
    · intro hp
      have hfails := Fails.nested hv hc hlt (hwrapped hp)
      rwa [AttestationError.wrapFailure_of_not_passedOn
        (AttestationError.not_passedOn_wrapped hp)] at hfails

theorem Fault.failsAt (hf : Fault suite r o k d cause) (hn : Nested suite r o k c d)
    (hk : k ≤ maxChainDepth) (hp : 0 < k → ¬ cause.PassedOn) :
    FailsAt suite r o c k cause (cause.wrapped 0 k) where
  wrapped := rfl
  depth := hk
  bare := hf.bare
  rootCause := by rw [AttestationError.rootCause_wrapped, hf.bare.rootCause_eq]
  passedOn := hp
  conflict := by
    rintro hpos a expected declared rfl
    exact Nat.ne_of_gt hpos hf.depth_eq_zero
  tooDeep := by
    rintro limit rfl
    exact Nat.le_antisymm hk hf.maxChainDepth_le
  origin := .inl ⟨d, hn, hf⟩

theorem LacksCertificate.failsAt {entity : EntityId}
    (hl : LacksCertificate r.entities o.height d entity) (hn : Nested suite r o n c d)
    (hle : n ≤ maxChainDepth) :
    FailsAt suite r o c 0 (.resolver (.missingSigningCertificate entity))
      (.resolver (.missingSigningCertificate entity)) where
  wrapped := rfl
  depth := Nat.zero_le _
  bare := by rintro depth source ⟨⟩
  rootCause := rfl
  passedOn := fun h => absurd h (Nat.lt_irrefl 0)
  conflict := fun h => absurd h (Nat.lt_irrefl 0)
  tooDeep := by rintro limit ⟨⟩
  origin := .inr ⟨rfl, n, d, entity, hle, hn, hl, rfl⟩

theorem Fails.exists_failsAt (h : Fails suite r o 0 c e) :
    ∃ k cause, FailsAt suite r o c k cause e := by
  obtain ⟨n, d, cause, hn, hnested, hfault, he⟩ := h.exists_fault (Nat.zero_le _)
  rw [Nat.zero_add] at hn hfault
  rcases he with ⟨⟨entity, rfl⟩, rfl⟩ | ⟨hp, rfl⟩
  · by_cases h0 : n = 0
    · subst h0
      exact ⟨0, _, hfault.failsAt hnested hn fun h => absurd h (Nat.lt_irrefl 0)⟩
    · have hlacks := hfault.lacksCertificate (Nat.pos_of_ne_zero h0)
      exact ⟨0, _, hlacks.failsAt hnested hn⟩
  · exact ⟨n, cause, hfault.failsAt hnested hn fun _ => hp⟩

theorem LacksCertificate.fails {entity : EntityId}
    (hl : LacksCertificate r.entities o.height d entity) (hn : Nested suite r o n c d)
    (hle : n ≤ maxChainDepth) :
    Fails suite r o 0 c (.resolver (.missingSigningCertificate entity)) := by
  rw [← Nat.zero_add n] at hle
  exact (hn.fails hle hl.fault).1 ⟨entity, rfl⟩

theorem FailsAt.fails (h : FailsAt suite r o c k cause e) : Fails suite r o 0 c e := by
  rcases h.origin with ⟨d, hnested, hfault⟩ | ⟨rfl, n, d, entity, hn, hnested, hl, rfl⟩
  · have hk := h.depth
    rw [← Nat.zero_add k] at hk hfault
    have hfails := hnested.fails hk hfault
    rw [h.wrapped]
    by_cases hp : cause.PassedOn
    · have h0 : k = 0 := Nat.eq_zero_of_not_pos fun hpos => h.passedOn hpos hp
      subst h0
      exact hfails.1 hp
    · exact hfails.2 hp
  · rw [h.wrapped]
    exact hl.fails hnested hn

/-- Every failure has the shape, and every error of the shape is the failure of the chain that it
tells of. -/
theorem reportsFailure (suite : Suite) (r : Resolvers) (o : AttestOptions) (c : Certificate) :
    ReportsFailure suite r o c := by
  have hfails : ∀ e, (c.attest suite r o).1 = .error e ↔ Fails suite r o 0 c e := by
    intro e
    rw [attest_fst, Certificate.attestation, attestAt_eq_error_iff_fails (Nat.le_refl _),
      Nat.sub_self]
  refine ⟨fun e => ?_, fun n d entity hn hnested hl => ?_⟩
  · rw [hfails]
    constructor
    · intro h
      exact h.exists_failsAt
    · rintro ⟨k, cause, h⟩
      exact h.fails
  · exact (hfails _).mpr (hl.fails hnested hn)

end Attestation

end SignedLedger
