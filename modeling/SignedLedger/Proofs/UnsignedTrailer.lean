import SignedLedger.Proofs.FieldCodec
import SignedLedger.Proofs.TrustedCertificate
import SignedLedger.Suite.Checksum
import SignedLedger.Trust.Contract

/-! Bytes behind the signature. The signer and the signature are looked up before the certificate is
narrowed, and both are found at their places whatever follows them. All other checks read the
narrowed certificate, so that the verdict is that on the signed bytes alone. -/

namespace SignedLedger

/-- That a contract reads nothing of a certificate but what is visible. -/
def Contract.ReadsVisible (contract : Contract) : Prop :=
  ∀ c d : Certificate, c.visibleBytes = d.visibleBytes → contract c = contract d

def ContractResolver.ReadsVisible (contracts : ContractResolver) : Prop :=
  ∀ type artifact contract, contracts type artifact = some contract → contract.ReadsVisible

theorem Contract.readsVisible_requireField (t : Tag) : (requireField t).ReadsVisible := by
  intro c d h
  simp only [requireField, Certificate.field_eq, h]

theorem Contract.readsVisible_maxSize (limit : Nat) : (maxSize limit).ReadsVisible := by
  intro c d h
  simp only [maxSize, ← Certificate.length_visibleBytes, h]

/-- That `c` and `d` name the same signer at the same place, and that the same message and signature
leave the same bytes visible. -/
structure Certificate.SignedAlike (c d : Certificate) : Prop where
  signer : c.field .signerId = d.field .signerId
  region : c.signedRegion = d.signedRegion
  narrowed : ∀ region, d.signedRegion = .ok (some region) →
    (c.narrow region.signature.stop).shown = (d.narrow region.signature.stop).shown

namespace Attestation

/-- Only what is visible of a verified certificate. -/
def Verified.shown (v : Verified) : Verified :=
  ⟨v.signer, v.signed.shown⟩

/-- The checks that come after the signature. -/
def judge (r : Resolvers) (o : AttestOptions) (depth : Nat)
    (attestNested : Certificate → Except AttestationError Nat) (v : Verified) :
    Except AttestationError Attestation := do
  let chainDepth ← chainDepthOf attestNested v.signed
  let artifact ← structural (v.signed.identifier .artifactId)
  if depth = 0 then
    if let some a := artifact then checkArtifactState r.artifacts v.signed a
  if o.validateContract then checkContract r.contracts v.signed artifact
  pure { signer := v.signer, visible := v.signed.visible, chainDepth }

variable {suite : Suite} {r : Resolvers} {o : AttestOptions} {depth levels : Nat}
variable {entities : EntityResolver} {height : UInt64} {c d : Certificate} {v : Verified}
variable {attestNested : Certificate → Except AttestationError Nat}

theorem check_eq_judge :
    check suite r o depth attestNested c =
      (verify suite r.entities o.height c).bind (judge r o depth attestNested) := rfl

theorem checkContract_shown {contracts : ContractResolver} (hr : contracts.ReadsVisible)
    (artifact : Option ArtifactId) :
    checkContract contracts c.shown artifact = checkContract contracts c artifact := by
  unfold checkContract
  rw [Certificate.certificateType_shown]
  rcases c.certificateType with e | _ | type
  · rfl
  · rfl
  simp only [structural_ok, ok_bind]
  cases hcontract : contracts type artifact with
  | none => rfl
  | some contract =>
    have hc := hr type artifact contract hcontract _ _ c.visibleBytes_shown
    simp only [hc]

theorem judge_shown (hr : r.contracts.ReadsVisible) :
    judge r o depth attestNested v.shown = judge r o depth attestNested v := by
  simp only [judge, Verified.shown, chainDepthOf, checkArtifactState, checkContract_shown hr,
    Certificate.field_shown, Certificate.identifier_shown, Certificate.visible_shown]

/-- Verifying reads the certificate as a whole only to find the signer and the signature. -/
theorem verify_congr (h : c.SignedAlike d) :
    (verify suite entities height c).map Verified.shown =
      (verify suite entities height d).map Verified.shown := by
  unfold verify
  rw [h.signer, h.region]
  rcases d.field .signerId with e | _ | f
  · rfl
  · rfl
  simp only [liftCodec_ok, structural_ok, ok_bind]
  rcases @Identifier.ofField .entity .signerId f.value with e | signer
  · rfl
  rcases hfound : d.signedRegion with e | _ | region
  · rfl
  · rfl
  simp only [liftCodec_ok, structural_ok, ok_bind]
  have hshown := h.narrowed region hfound
  have hauthor : ((c.narrow region.signature.stop).identifier .authorId :
      Except _ (Option EntityId)) = (d.narrow region.signature.stop).identifier .authorId := by
    rw [← Certificate.identifier_shown, hshown, Certificate.identifier_shown]
  have hlast : (Except.ok ⟨signer, c.narrow region.signature.stop⟩ :
      Except AttestationError Verified).map Verified.shown =
      (Except.ok ⟨signer, d.narrow region.signature.stop⟩ :
        Except AttestationError Verified).map Verified.shown := by
    simp only [map_ok, Verified.shown, hshown]
  rw [hauthor]
  rcases entities signer height with e | keys
  · rfl
  simp only [mapError_ok, ok_bind]
  split
  · rfl
  rcases (d.narrow region.signature.stop).identifier .authorId with e | _ | declared
  · rfl
  · simp only [structural_ok, ok_bind]
    split
    · rfl
    · exact hlast
  · simp only [structural_ok, ok_bind]
    split
    · rfl
    split
    · rfl
    · exact hlast

/-- Certificates that agree on the signer, the signature and what these leave visible are judged
alike. -/
theorem check_congr (hr : r.contracts.ReadsVisible) (h : c.SignedAlike d) :
    check suite r o depth attestNested c = check suite r o depth attestNested d := by
  have hverify : (verify suite r.entities o.height c).map Verified.shown =
      (verify suite r.entities o.height d).map Verified.shown :=
    verify_congr h
  have hcheck : ∀ e : Certificate, check suite r o depth attestNested e =
      ((verify suite r.entities o.height e).map Verified.shown).bind
        (judge r o depth attestNested) := by
    intro e
    rw [check_eq_judge]
    cases verify suite r.entities o.height e with
    | error _ => rfl
    | ok v => exact (judge_shown hr).symm
  rw [hcheck, hcheck, hverify]

theorem attestAt_congr (hr : r.contracts.ReadsVisible) (h : c.SignedAlike d) :
    attestAt suite r o levels c = attestAt suite r o levels d := by
  cases levels with
  | zero => exact check_congr hr h
  | succ levels => exact check_congr hr h

end Attestation

namespace Certificate

/-- That `p` is a sequence of fields whose last is its first signature, and that a field before the
signature names a signer. -/
structure EndsSigned (p : Bytes) (before : List Field) (last : Field) : Prop where
  fields : (ofBytes p).fields = (before ++ [last]).map .ok
  signature : last.tag = .signature
  first : ∀ f ∈ before, f.tag ≠ .signature
  signer : ∃ f ∈ before, f.tag = .signerId

/-- That a look-up in `c` can give `f`. -/
def Reaches (c : Certificate) (f : Field) : Prop :=
  .ok f ∈ c.fields ∨ (∃ t, c.field t = .ok (some f)) ∨
    ∃ t found, c.fieldsOf t = .ok found ∧ f ∈ found

/-- That `c` says what the bytes `p` say, and that what is reached lies within them. -/
structure ShowsOnly (c : Certificate) (p : Bytes) : Prop where
  visible : c.visible = p.length
  bytes : c.visibleBytes = p
  fields : c.fields = (ofBytes p).fields
  field : ∀ t, c.field t = (ofBytes p).field t
  fieldsOf : ∀ t, c.fieldsOf t = (ofBytes p).fieldsOf t
  within : ∀ f, c.Reaches f → .ok f ∈ (ofBytes p).fields ∧ f.stop ≤ p.length

variable {c : Certificate} {p t : Bytes} {before : List Field} {last : Field} {fields : FieldList}

theorem mem_placed_of_reaches {f : Field} (hf : fields.Fits .short)
    (hc : c.visibleBytes = fields.written .short) (h : c.Reaches f) :
    f ∈ fields.placed .short 0 := by
  rcases h with h | ⟨t, h⟩ | ⟨t, found, h, hfound⟩
  · rw [fields_of_written hf hc] at h
    simpa using h
  · rw [field_of_written t hf hc] at h
    exact List.mem_of_find?_eq_some (Except.ok.inj h)
  · rw [fieldsOf_of_written t hf hc] at h
    obtain rfl := Except.ok.inj h
    exact List.mem_of_mem_filter hfound

namespace EndsSigned

theorem exists_written (h : EndsSigned p before last) :
    ∃ fields : FieldList, fields.Fits .short ∧ p = fields.written .short ∧
      before ++ [last] = fields.placed .short 0 := by
  have hfields := h.fields
  rw [fields_eq, visibleBytes_ofBytes] at hfields
  exact Field.scanFrom_eq_map_ok_iff.mp hfields

theorem showsOnly (h : EndsSigned p before last) (hc : c.visibleBytes = p) : c.ShowsOnly p := by
  have hp : c.visibleBytes = (ofBytes p).visibleBytes := hc.trans (visibleBytes_ofBytes p).symm
  refine ⟨?_, hc, ?_, fun t => ?_, fun t => ?_, fun f hf => ?_⟩
  · rw [← c.length_visibleBytes, hc]
  · rw [fields_eq, fields_eq, hp]
  · rw [field_eq, field_eq, hp]
  · rw [fieldsOf_eq, fieldsOf_eq, hp]
  · obtain ⟨fields, hfits, hwritten, hplaced⟩ := h.exists_written
    have hm := mem_placed_of_reaches hfits (hc.trans hwritten) hf
    have hstop := FieldList.stop_le_of_mem_placed hm
    rw [← hwritten, Nat.zero_add] at hstop
    rw [h.fields, hplaced]
    exact ⟨List.mem_map_of_mem hm, hstop⟩

theorem stop_eq (h : EndsSigned p before last) : last.stop = p.length := by
  obtain ⟨fields, hfits, hwritten, hplaced⟩ := h.exists_written
  have hlast : last ∈ (fields.placed .short 0).getLast? := by
    rw [← hplaced, List.getLast?_concat]
    rfl
  rw [Field.stop_of_mem_getLast?_placed hlast, Nat.zero_add, hwritten]

theorem offset_le (h : EndsSigned p before last) : last.offset ≤ p.length := by
  obtain ⟨fields, _, _, hplaced⟩ := h.exists_written
  have hm : last ∈ fields.placed .short 0 := by
    rw [← hplaced]
    exact List.mem_concat_self
  obtain ⟨_, _, _, _, hstop⟩ := FieldList.exists_of_mem_placed hm
  rw [← h.stop_eq, hstop]
  omega

/-- What is found in `p` is found there whatever follows. -/
theorem field_of_find? (h : EndsSigned p before last) (hc : c.visibleBytes = p ++ t) {tag : Tag}
    {f : Field} (hf : (before ++ [last]).find? (fun g => g.tag = tag) = some f) :
    c.field tag = .ok (some f) := by
  obtain ⟨fields, hfits, hwritten, hplaced⟩ := h.exists_written
  rw [field_eq, hc, hwritten, Field.findFirstFrom_written hfits, ← hplaced, hf]

theorem field_signature (h : EndsSigned p before last) (hc : c.visibleBytes = p ++ t) :
    c.field .signature = .ok (some last) := by
  refine h.field_of_find? hc ?_
  have hnone : before.find? (fun g => g.tag = .signature) = none := by
    rw [List.find?_eq_none]
    intro f hf
    simpa using h.first f hf
  rw [List.find?_append, hnone]
  simp [h.signature]

theorem exists_field_signer (h : EndsSigned p before last) :
    ∃ f, ∀ {c : Certificate} {t : Bytes}, c.visibleBytes = p ++ t →
      c.field .signerId = .ok (some f) := by
  obtain ⟨f, hf, htag⟩ := h.signer
  cases hfound : (before ++ [last]).find? (fun g => g.tag = .signerId) with
  | none =>
    rw [List.find?_eq_none] at hfound
    exact absurd (decide_eq_true htag) (hfound f (List.mem_append_left _ hf))
  | some g => exact ⟨g, fun hc => h.field_of_find? hc hfound⟩

theorem signedRegion_eq (h : EndsSigned p before last) (hc : c.visibleBytes = p ++ t) :
    c.signedRegion = .ok (some ⟨p.take last.offset, last⟩) := by
  refine Attestation.signedRegion_eq_some_iff.mpr ⟨h.field_signature hc, ?_⟩
  have hvisible : p.length ≤ c.visible := by
    rw [← c.length_visibleBytes, hc, List.length_append]
    omega
  rw [← take_visibleBytes (Nat.le_trans h.offset_le hvisible), hc,
    List.take_append_of_le_length h.offset_le]

theorem narrow_visibleBytes (h : EndsSigned p before last) (hc : c.visibleBytes = p ++ t) :
    (c.narrow last.stop).visibleBytes = p := by
  rw [c.visibleBytes_narrow, hc, h.stop_eq, List.take_left]

theorem signedAlike (h : EndsSigned p before last) (hc : c.visibleBytes = p ++ t) :
    c.SignedAlike (ofBytes p) := by
  have hp : (ofBytes p).visibleBytes = p ++ [] := by rw [visibleBytes_ofBytes, List.append_nil]
  obtain ⟨f, hf⟩ := h.exists_field_signer
  refine ⟨(hf hc).trans (hf hp).symm, (h.signedRegion_eq hc).trans (h.signedRegion_eq hp).symm, ?_⟩
  intro region hregion
  obtain rfl := Option.some.inj (Except.ok.inj ((h.signedRegion_eq hp).symm.trans hregion))
  rw [shown, shown, h.narrow_visibleBytes hc, h.narrow_visibleBytes hp]

end EndsSigned

end Certificate

namespace Attestation

open Certificate

/-- That a certificate with the visible bytes `b`, once it is attested, shows `p` and nothing else,
and stays so when it is attested again. -/
def Settles (suite : Suite) (r : Resolvers) (o : AttestOptions) (p b : Bytes) : Prop :=
  ∀ a c, (ofBytes b).attest suite r o = (.ok a, c) →
    c.ShowsOnly p ∧ a.visible = p.length ∧ c.attest suite r o = (.ok a, c)

/-- That the bytes `t` behind `p` make no difference. -/
structure IgnoresTrailer (suite : Suite) (r : Resolvers) (o : AttestOptions) (p t : Bytes) :
    Prop where
  result : ((ofBytes (p ++ t)).attest suite r o).1 = ((ofBytes p).attest suite r o).1
  nested : ∀ levels,
    attestAt suite r o levels (ofBytes (p ++ t)) = attestAt suite r o levels (ofBytes p)
  trailed : Settles suite r o p (p ++ t)
  alone : Settles suite r o p p

variable {suite : Suite} {r : Resolvers} {o : AttestOptions} {levels : Nat} {c : Certificate}
variable {p t : Bytes} {before : List Field} {last : Field} {a : Attestation}

theorem attestAt_eq (h : EndsSigned p before last) (hr : r.contracts.ReadsVisible)
    (hc : c.visibleBytes = p ++ t) :
    attestAt suite r o levels c = attestAt suite r o levels (ofBytes p) :=
  attestAt_congr hr (h.signedAlike hc)

theorem visible_of_attestAt (h : EndsSigned p before last) (hc : c.visibleBytes = p ++ t)
    (ha : attestAt suite r o levels c = .ok a) : a.visible = p.length := by
  have hverify : ∃ v, verify suite r.entities o.height c = .ok v ∧
      v.signed.visible = a.visible := by
    cases levels with
    | zero =>
      obtain ⟨v, _, hv, _, _, _, _, _, hvisible⟩ := check_eq_ok_iff.mp ha
      exact ⟨v, hv, hvisible⟩
    | succ levels =>
      obtain ⟨v, _, hv, _, _, _, _, _, hvisible⟩ := check_eq_ok_iff.mp ha
      exact ⟨v, hv, hvisible⟩
  obtain ⟨v, hv, hvisible⟩ := hverify
  obtain ⟨f, g, k, hverifies⟩ := verify_eq_ok_iff.mp hv
  have hg : g = last := by
    have hfound := hverifies.signature.symm.trans (h.field_signature hc)
    exact Option.some.inj (Except.ok.inj hfound)
  rw [← hvisible, hverifies.signed, hg, ← length_visibleBytes, h.narrow_visibleBytes hc]

theorem settles (h : EndsSigned p before last) (hr : r.contracts.ReadsVisible) (t : Bytes) :
    Settles suite r o p (p ++ t) := by
  intro a d hattest
  have hc : (ofBytes (p ++ t)).visibleBytes = p ++ t := visibleBytes_ofBytes _
  obtain ⟨ha, rfl⟩ := attest_eq_ok_iff.mp hattest
  have hvisible : a.visible = p.length := visible_of_attestAt h hc ha
  have hnarrow : ((ofBytes (p ++ t)).narrow a.visible).visibleBytes = p := by
    rw [hvisible, ← h.stop_eq, h.narrow_visibleBytes hc]
  have hshows := h.showsOnly hnarrow
  refine ⟨hshows, hvisible, attest_eq_ok_iff.mpr ⟨?_, ?_⟩⟩
  · have hagain : ((ofBytes (p ++ t)).narrow a.visible).attestation suite r o =
        (ofBytes p).attestation suite r o :=
      attestAt_eq h hr (hnarrow.trans (List.append_nil p).symm)
    have hfirst : (ofBytes (p ++ t)).attestation suite r o = (ofBytes p).attestation suite r o :=
      attestAt_eq h hr hc
    rw [hagain, ← hfirst, ha]
  · simp only [narrow, Nat.min_assoc, Nat.min_self]

/-- No trailer has a say in an attestation, be it of the outermost certificate or of a nested one.
-/
theorem ignoresTrailer (h : EndsSigned p before last) (hr : r.contracts.ReadsVisible)
    (suite : Suite) (o : AttestOptions) (t : Bytes) : IgnoresTrailer suite r o p t := by
  have hnested : ∀ levels,
      attestAt suite r o levels (ofBytes (p ++ t)) = attestAt suite r o levels (ofBytes p) :=
    fun levels => attestAt_eq h hr (visibleBytes_ofBytes _)
  refine ⟨?_, hnested, settles h hr t, ?_⟩
  · rw [attest_fst, attest_fst]
    exact hnested maxChainDepth
  · have halone : Settles suite r o p (p ++ []) := settles h hr []
    rwa [List.append_nil] at halone

end Attestation

/-! A signed transaction, and bytes behind it that name another signer and then break off. -/

namespace Sample

def clerk : EntityId :=
  ⟨.ofNat 16 8⟩

def entries : FieldList :=
  [CertificateType.field ⟨0x0100⟩, Tag.word64 ⟨0x0400⟩ 17]

def entered : Bytes :=
  match entries.sign (.checksum 1 4 4) clerk.bytes [9] with
  | .ok c => c.raw
  | .error _ => []

def scribble : Bytes :=
  FieldList.written .short [Tag.signerId.identifier (⟨.ofNat 16 9⟩ : EntityId)] ++ [0, 4]

/-- Transactions need a payload, and all other certificates may have 64 bytes. -/
def clerks : Resolvers :=
  ⟨fun _ _ => .ok ⟨[], [9]⟩, .none, fun type _ =>
    some (if type.isTransaction then .requireField ⟨0x0400⟩ else .maxSize 64)⟩

theorem readsVisible_clerks : clerks.contracts.ReadsVisible := by
  intro type artifact contract hcontract
  obtain rfl := Option.some.inj hcontract
  split
  · exact Contract.readsVisible_requireField ⟨0x0400⟩
  · exact Contract.readsVisible_maxSize 64

theorem endsSigned_entered : Certificate.EndsSigned entered
    ((entries ++ [Tag.signerId.identifier clerk]).placed .short 0)
    ⟨.signature, entered.drop 50, 44, 54⟩ where
  fields := by decide +kernel
  signature := rfl
  first := by decide +kernel
  signer := ⟨⟨.signerId, clerk.bytes, 22, 44⟩, by decide +kernel, rfl⟩

end Sample

namespace Attestation

theorem ignoresTrailer_scribble :
    ((Certificate.ofBytes Sample.entered).attest (.checksum 1 4 4) Sample.clerks
      { validateContract := true }).1 = .ok ⟨Sample.clerk, 54, 0⟩ ∧
    IgnoresTrailer (.checksum 1 4 4) Sample.clerks { validateContract := true } Sample.entered
      Sample.scribble :=
  ⟨by decide +kernel, ignoresTrailer Sample.endsSigned_entered Sample.readsVisible_clerks _ _ _⟩

end Attestation

end SignedLedger
