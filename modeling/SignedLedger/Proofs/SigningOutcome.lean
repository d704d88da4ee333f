import SignedLedger.Proofs.BlockCertificate
import SignedLedger.Proofs.FieldCodec
import SignedLedger.Suite.Checksum

/-! What signing comes to. The size of a certificate is told three times: from the values before
anything is written, from what is written, and by the store from the sizes of its transactions. These
sizes are one and the same, so that only a suite whose signatures do not have the declared size makes
them disagree. -/

namespace SignedLedger

theorem Field.encodeAll_eq_error {fields : FieldList} {e : CodecError}
    (h : encodeAll fields = .error e) :
    ∃ f ∈ fields, HeaderWidth.short.maxValue < f.2.length ∧ e = .valueTooLarge f.2.length := by
  induction fields with
  | nil => cases h
  | cons f fields ih =>
    rcases bind_eq_error_iff.mp h with h | ⟨_, _, h⟩
    · unfold encode at h
      split at h
      · rename_i hlong
        cases h
        exact ⟨f, List.mem_cons_self, hlong, rfl⟩
      · cases h
    · rcases bind_eq_error_iff.mp h with h | ⟨_, _, h⟩
      · obtain ⟨g, hg, hlong, he⟩ := ih h
        exact ⟨g, List.mem_cons_of_mem f hg, hlong, he⟩
      · cases h

namespace FieldList

variable {fields : FieldList} {suite : Suite} {signer privateKey signature : Bytes}
variable {e : CertificateError} {c : Certificate}

/-- Nothing but a value that is too long keeps fields from being written. -/
theorem serialize_eq_error (h : fields.serialize = .error e) :
    ∃ f ∈ fields, HeaderWidth.short.maxValue < f.2.length ∧ e = .codec (.valueTooLarge f.2.length) := by
  rcases bind_eq_error_iff.mp h with h | ⟨b, hb, h⟩
  · obtain ⟨cause, hcause, rfl⟩ := mapError_eq_error_iff.mp h
    obtain ⟨f, hf, hlong, rfl⟩ := Field.encodeAll_eq_error hcause
    exact ⟨f, hf, hlong, rfl⟩
  · obtain ⟨_, rfl⟩ := Field.encodeAll_eq_ok_iff.mp (liftCodec_eq_ok_iff.mp hb)
    rw [length_written, if_neg (fun hne => hne rfl)] at h
    cases h

theorem emit_eq_error (h : fields.emit = .error e) :
    e = .emptyCertificate ∨ fields.serialize = .error e := by
  unfold emit at h
  split at h
  · cases h
    exact .inl rfl
  · rcases bind_eq_error_iff.mp h with h | ⟨_, _, h⟩
    · exact .inr h
    · cases h

/-- That every value fits the header of its field, also that of the signature, if there is one. -/
structure Bounded (fields : FieldList) (suite : Suite) (signer privateKey : Bytes) : Prop where
  values : fields.Fits .short
  signature : ∀ signature,
    suite.sign privateKey ((fields.named signer).written .short) = .ok signature →
      signature.length ≤ HeaderWidth.short.maxValue

/-- Why fields are not signed. A reason counts only where none of those before it does. -/
inductive Unsigned (fields : FieldList) (suite : Suite) (signer privateKey : Bytes) :
    CertificateError → Prop
  | signerSize (hs : signer.length ≠ 16) :
    Unsigned fields suite signer privateKey (.invalidSignerId signer.length)
  | empty (hs : signer.length = 16) (hf : fields = []) :
    Unsigned fields suite signer privateKey .emptyCertificate
  | crypto (hs : signer.length = 16) (hf : fields ≠ []) {cause : CryptoError}
    (hc : suite.sign privateKey ((fields.named signer).written .short) = .error cause) :
    Unsigned fields suite signer privateKey (.crypto cause)
  | size (hs : signer.length = 16) (hf : fields ≠ []) {signature : Bytes}
    (hc : suite.sign privateKey ((fields.named signer).written .short) = .ok signature)
    (hsize : signature.length ≠ suite.signatureSize) :
    Unsigned fields suite signer privateKey
      (.sizeMismatch
        ((fields.named signer).encodedSize + SignedLedger.encodedSize suite.signatureSize)
        ((fields.sealed signer signature).written .short).length)

/-- Signing once the signer and the fields are in order. -/
theorem sign_eq (hs : signer.length = 16) (hf : fields ≠ [])
    (hb : fields.Bounded suite signer privateKey) :
    fields.sign suite signer privateKey =
      match suite.sign privateKey ((fields.named signer).written .short) with
      | .error cause => .error (.crypto cause)
      | .ok signature =>
        if signature.length = suite.signatureSize then
          .ok (.ofBytes ((fields.sealed signer signature).written .short))
        else
          .error (.sizeMismatch
            ((fields.named signer).encodedSize + SignedLedger.encodedSize suite.signatureSize)
            ((fields.sealed signer signature).written .short).length) := by
  have hnamed : (fields.named signer).Fits .short :=
    fits_append_iff.mpr ⟨hb.values, by simp [Fits, hs, HeaderWidth.maxValue, HeaderWidth.lengthBytes]⟩
  have hmessage : (fields.named signer).serialize = .ok ((fields.named signer).written .short) :=
    serialize_eq_ok_iff.mpr ⟨hnamed, rfl⟩
  unfold sign
  change (if _ then _ else (if _ then _ else (fields.named signer).serialize >>= _)) = _
  rw [if_neg (not_not_intro hs), if_neg hf, hmessage, ok_bind]
  cases hsign : suite.sign privateKey ((fields.named signer).written .short) with
  | error cause => rfl
  | ok signature =>
    have hlast : Field.encode .short .signature signature =
        .ok (Field.layout .short .signature signature) :=
      Field.encode_eq_ok_iff.mpr ⟨hb.signature signature hsign, rfl⟩
    simp only [mapError_ok, ok_bind, hlast, liftCodec_ok, ← written_sealed]
    rw [← named, length_written, encodedSize_sealed]
    -- Expected and actual size differ in the signature only, and so compare as the signatures do.
    by_cases hsize : signature.length = suite.signatureSize
    · rw [if_pos hsize, hsize, if_neg (fun hne => hne rfl)]
      rfl
    · have hne : (fields.named signer).encodedSize + SignedLedger.encodedSize signature.length ≠
          (fields.named signer).encodedSize + SignedLedger.encodedSize suite.signatureSize := by
        simpa [SignedLedger.encodedSize] using hsize
      rw [if_neg hsize, if_pos hne]
      rfl

theorem sign_of_signature (hs : signer.length = 16) (hf : fields ≠ [])
    (hb : fields.Bounded suite signer privateKey)
    (hsign : suite.sign privateKey ((fields.named signer).written .short) = .ok signature)
    (hsize : signature.length = suite.signatureSize) :
    fields.sign suite signer privateKey =
      .ok (.ofBytes ((fields.sealed signer signature).written .short)) := by
  rw [sign_eq hs hf hb, hsign]
  exact if_pos hsize

/-- With a signature of the declared size, only a value that is too long stands in the way. -/
theorem sign_eq_error_of_signature (hs : signer.length = 16) (hf : fields ≠ [])
    (hsign : suite.sign privateKey ((fields.named signer).written .short) = .ok signature)
    (hsize : signature.length = suite.signatureSize)
    (h : fields.sign suite signer privateKey = .error e) :
    ∃ f ∈ fields.sealed signer signature, HeaderWidth.short.maxValue < f.2.length ∧
      e = .codec (.valueTooLarge f.2.length) := by
  have hrest := h
  unfold sign at hrest
  change (if _ then _ else (if _ then _ else (fields.named signer).serialize >>= _)) = _ at hrest
  rw [if_neg (not_not_intro hs), if_neg hf] at hrest
  rcases bind_eq_error_iff.mp hrest with hserialize | ⟨message, hmessage, hrest⟩
  · obtain ⟨f, hm, hlong, rfl⟩ := serialize_eq_error hserialize
    exact ⟨f, List.mem_append_left _ hm, hlong, rfl⟩
  · obtain ⟨hnamed, rfl⟩ := serialize_eq_ok_iff.mp hmessage
    have hlong : HeaderWidth.short.maxValue < signature.length := by
      by_contra hle
      have hfits := fits_sealed_iff.mpr ⟨hnamed, Nat.not_lt.mp hle⟩
      have hok := sign_eq_ok_iff.mpr ⟨hs, hf, signature, hsign, hsize, hfits, rfl⟩
      rw [hok] at h
      cases h
    refine ⟨(.signature, signature), by simp [sealed], hlong, ?_⟩
    rw [hsign, mapError_ok, ok_bind, Field.encode, if_pos hlong] at hrest
    cases hrest
    rfl

theorem Unsigned.sign_eq (h : Unsigned fields suite signer privateKey e)
    (hb : fields.Bounded suite signer privateKey) :
    fields.sign suite signer privateKey = .error e := by
  cases h with
  | signerSize hs =>
    unfold sign
    rw [if_pos hs]
    rfl
  | empty hs hf =>
    unfold sign
    rw [if_neg (not_not_intro hs), if_pos hf]
    rfl
  | crypto hs hf hsign => rw [FieldList.sign_eq hs hf hb, hsign]
  | size hs hf hsign hsize =>
    rw [FieldList.sign_eq hs hf hb, hsign]
    exact if_neg hsize

theorem exists_signed_or_unsigned (hb : fields.Bounded suite signer privateKey) :
    (∃ c, fields.sign suite signer privateKey = .ok c) ∨
      ∃ e, Unsigned fields suite signer privateKey e := by
  by_cases hs : signer.length = 16
  · by_cases hf : fields = []
    · exact .inr ⟨_, .empty hs hf⟩
    · cases hsign : suite.sign privateKey ((fields.named signer).written .short) with
      | error cause => exact .inr ⟨_, .crypto hs hf hsign⟩
      | ok signature =>
        by_cases hsize : signature.length = suite.signatureSize
        · exact .inl ⟨_, sign_of_signature hs hf hb hsign hsize⟩
        · exact .inr ⟨_, .size hs hf hsign hsize⟩
  · exact .inr ⟨_, .signerSize hs⟩

/-- Signing fails for a reason and not without one. -/
theorem sign_eq_error_iff (hb : fields.Bounded suite signer privateKey) :
    fields.sign suite signer privateKey = .error e ↔ Unsigned fields suite signer privateKey e := by
  refine ⟨fun h => ?_, fun h => h.sign_eq hb⟩
  rcases exists_signed_or_unsigned hb with ⟨c, hc⟩ | ⟨e', he⟩
  · rw [hc] at h
    cases h
  · obtain rfl : e' = e := Except.error.inj ((he.sign_eq hb).symm.trans h)
    exact he

/-- That signing succeeds where no reason stands against it, writing the fields, the signer and the
signature over both, and fails for the first reason otherwise. -/
structure SignsInOrder (fields : FieldList) (suite : Suite) (signer privateKey : Bytes) : Prop where
  succeeds_iff : (∃ c, fields.sign suite signer privateKey = .ok c) ↔
    signer.length = 16 ∧ fields ≠ [] ∧
      ∃ signature, suite.sign privateKey ((fields.named signer).written .short) = .ok signature ∧
        signature.length = suite.signatureSize
  laidOut : ∀ c, fields.sign suite signer privateKey = .ok c →
    ∃ message signature b, Field.encodeAll (fields.named signer) = .ok message ∧
      suite.sign privateKey message = .ok signature ∧
      Field.encodeAll (fields.named signer ++ [(.signature, signature)]) = .ok b ∧ c = .ofBytes b
  fails_iff : ∀ e, fields.sign suite signer privateKey = .error e ↔
    Unsigned fields suite signer privateKey e

theorem Bounded.signsInOrder (hb : fields.Bounded suite signer privateKey) :
    SignsInOrder fields suite signer privateKey where
  succeeds_iff := by
    constructor
    · rintro ⟨c, hc⟩
      obtain ⟨hs, hf, signature, hsign, hsize, _, _⟩ := sign_eq_ok_iff.mp hc
      exact ⟨hs, hf, signature, hsign, hsize⟩
    · rintro ⟨hs, hf, signature, hsign, hsize⟩
      exact ⟨_, sign_of_signature hs hf hb hsign hsize⟩
  laidOut := by
    intro c hc
    obtain ⟨_, _, signature, hsign, _, hfits, rfl⟩ := sign_eq_ok_iff.mp hc
    have hnamed := (fits_sealed_iff.mp hfits).1
    exact ⟨_, signature, _, Field.encodeAll_eq_ok_iff.mpr ⟨hnamed, rfl⟩, hsign,
      Field.encodeAll_eq_ok_iff.mpr ⟨hfits, rfl⟩, rfl⟩
  fails_iff := fun _ => sign_eq_error_iff hb

end FieldList

namespace BlockSigner

variable {s : BlockSigner} {now : UInt64} {h : BlockHeader} {pending : List Certificate}
variable {c : Certificate}

theorem length_of_sign
    (hc : (s.layout now h pending).sign s.suite s.id.bytes s.privateKey = .ok c) :
    c.raw.length = s.expectedSize pending := by
  obtain ⟨_, _, signature, _, hsize, _, rfl⟩ := FieldList.sign_eq_ok_iff.mp hc
  have hvisible : (s.signed now h pending signature).visible = s.expectedSize pending :=
    visible_signed hsize
  exact hvisible

/-- The last check of the size never fails. -/
theorem certificate_eq (s : BlockSigner) (now : UInt64) (h : BlockHeader)
    (pending : List Certificate) :
    s.certificate now h pending =
      (s.layout now h pending).sign s.suite s.id.bytes s.privateKey := by
  rw [certificate]
  cases hc : (s.layout now h pending).sign s.suite s.id.bytes s.privateKey with
  | error e => rfl
  | ok c =>
    rw [ok_bind, if_neg (not_not_intro (length_of_sign hc))]
    rfl

end BlockSigner

/-- Signing fails for the first reason against it and for no other. No size that is computed from
values differs from that of what is written, and none that a store computes for a block certificate
differs from that of the certificate. -/
theorem sizes_agree :
    (∀ (fields : FieldList) suite signer privateKey, fields.Bounded suite signer privateKey →
      fields.SignsInOrder suite signer privateKey) ∧
    (∀ (fields : FieldList) expected actual,
      fields.serialize ≠ .error (.sizeMismatch expected actual) ∧
        fields.emit ≠ .error (.sizeMismatch expected actual)) ∧
    ∀ (s : BlockSigner) now h pending,
      s.certificate now h pending =
        (s.layout now h pending).sign s.suite s.id.bytes s.privateKey ∧
      ∀ c, s.certificate now h pending = .ok c → c.raw.length = s.expectedSize pending := by
  refine ⟨fun _ _ _ _ hb => hb.signsInOrder, fun fields expected actual => ?_, fun s now h pending => ?_⟩
  · have hserialize : fields.serialize ≠ .error (.sizeMismatch expected actual) := by
      intro hs
      obtain ⟨_, _, _, he⟩ := FieldList.serialize_eq_error hs
      cases he
    refine ⟨hserialize, fun he => ?_⟩
    rcases FieldList.emit_eq_error he with he | he
    · cases he
    · exact hserialize he
  · refine ⟨s.certificate_eq now h pending, fun c hc => ?_⟩
    rw [s.certificate_eq] at hc
    exact BlockSigner.length_of_sign hc

/-! A suite that signs with three bytes, whatever size it declares. -/

namespace Sample

def memo : FieldList :=
  [Tag.version.word16 1]

def secretary : EntityId :=
  ⟨.ofNat 16 5⟩

theorem bounded_memo (declared : Nat) :
    memo.Bounded (.checksum 1 declared 3) secretary.bytes [9] where
  values := by
    simp [FieldList.Fits, memo, Tag.word16, HeaderWidth.maxValue, HeaderWidth.lengthBytes]
  signature := by
    rintro _ ⟨⟩
    simp [HeaderWidth.maxValue, HeaderWidth.lengthBytes]

end Sample

theorem sizes_agree_memo :
    (∀ declared, Sample.memo.Bounded (.checksum 1 declared 3) Sample.secretary.bytes [9] ∧
      Sample.memo.SignsInOrder (.checksum 1 declared 3) Sample.secretary.bytes [9]) ∧
    (Sample.memo.sign (.checksum 1 3 3) Sample.secretary.bytes [9]).map (·.raw.length) = .ok 39 ∧
    Sample.memo.sign (.checksum 1 8 3) Sample.secretary.bytes [9] = .error (.sizeMismatch 44 39) :=
  ⟨fun declared => ⟨Sample.bounded_memo declared,
    sizes_agree.1 _ _ _ _ (Sample.bounded_memo declared)⟩, by decide +kernel, by decide +kernel⟩

end SignedLedger
