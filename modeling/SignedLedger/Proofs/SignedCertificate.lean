import SignedLedger.Proofs.TrustedCertificate

/-! Signed certificates: what signing writes, and that attestation trusts what was signed. -/

namespace SignedLedger

namespace FieldList

def named (fields : FieldList) (signer : Bytes) : FieldList :=
  fields ++ [(.signerId, signer)]

/-- The fields of a signed certificate. -/
def sealed (fields : FieldList) (signer signature : Bytes) : FieldList :=
  fields.named signer ++ [(.signature, signature)]

variable {fields : FieldList} {suite : Suite} {c : Certificate}
variable {signer privateKey signature : Bytes}

/-- The size that is computed from the values is always the size of what is written. -/
theorem serialize_eq_ok_iff {b : Bytes} :
    fields.serialize = .ok b ↔ fields.Fits .short ∧ b = fields.written .short := by
  simp only [serialize, bind_eq_ok_iff, liftCodec_eq_ok_iff, Field.encodeAll_eq_ok_iff]
  constructor
  · rintro ⟨_, ⟨hf, rfl⟩, h⟩
    simp only [length_written] at h
    simpa [hf, eq_comm] using h
  · rintro ⟨hf, rfl⟩
    exact ⟨_, ⟨hf, rfl⟩, by simp [length_written]⟩

theorem encodedSize_append (fields more : FieldList) :
    encodedSize (fields ++ more) = encodedSize fields + encodedSize more := by
  simp [encodedSize]

theorem encodedSize_named (fields : FieldList) (signer : Bytes) :
    (fields.named signer).encodedSize =
      fields.encodedSize + SignedLedger.encodedSize signer.length := by
  rw [named, encodedSize_append]
  rfl

theorem encodedSize_sealed (fields : FieldList) (signer signature : Bytes) :
    (fields.sealed signer signature).encodedSize =
      (fields.named signer).encodedSize + SignedLedger.encodedSize signature.length := by
  rw [sealed, encodedSize_append]
  rfl

theorem written_sealed (fields : FieldList) (signer signature : Bytes) :
    (fields.sealed signer signature).written .short =
      (fields.named signer).written .short ++ Field.layout .short .signature signature := by
  simp [sealed]

theorem fits_sealed_iff :
    (fields.sealed signer signature).Fits .short ↔
      (fields.named signer).Fits .short ∧ signature.length ≤ HeaderWidth.short.maxValue := by
  rw [sealed, fits_append_iff]
  simp [Fits]

/-- Signing fails unless the signature has the declared size, and so what it writes has the size
that was computed from the values. -/
theorem sign_eq_ok_iff :
    fields.sign suite signer privateKey = .ok c ↔
      signer.length = 16 ∧ fields ≠ [] ∧
      ∃ signature, suite.sign privateKey ((fields.named signer).written .short) = .ok signature ∧
        signature.length = suite.signatureSize ∧ (fields.sealed signer signature).Fits .short ∧
        c = .ofBytes ((fields.sealed signer signature).written .short) := by
  unfold sign
  by_cases hs : signer.length = 16
  · by_cases hf : fields = []
    · simp [hs, hf]
    · change (if _ then _ else (if _ then _ else (fields.named signer).serialize >>= _)) = _ ↔ _
      simp only [hs, hf, ne_eq, not_true_eq_false, not_false_eq_true, if_false, true_and,
        bind_eq_ok_iff, serialize_eq_ok_iff, mapError_eq_ok_iff, liftCodec_eq_ok_iff,
        Field.encode_eq_ok_iff, fits_sealed_iff]
      constructor
      · rintro ⟨_, ⟨hm, rfl⟩, signature, hsign, _, ⟨hsl, rfl⟩, h⟩
        rw [← written_sealed, length_written, encodedSize_sealed] at h
        by_cases hsize : signature.length = suite.signatureSize
        · rw [hsize, if_neg (by simp [named])] at h
          cases h
          exact ⟨signature, hsign, hsize, ⟨hm, hsl⟩, rfl⟩
        · rw [if_pos fun he => hsize (by simpa [SignedLedger.encodedSize, named] using he)] at h
          cases h
      · rintro ⟨signature, hsign, hsize, ⟨hm, hsl⟩, rfl⟩
        refine ⟨_, ⟨hm, rfl⟩, signature, hsign, _, ⟨hsl, rfl⟩, ?_⟩
        rw [← written_sealed, length_written, encodedSize_sealed, hsize, if_neg (by simp [named])]
        rfl
  · simp [hs]

def signedBy (fields : FieldList) (signer : EntityId) (signature : Bytes) : Certificate :=
  .ofBytes ((fields.sealed signer.bytes signature).written .short)

variable {i : EntityId} {t : Tag}

theorem visible_signedBy (fields : FieldList) (i : EntityId) (signature : Bytes) :
    (fields.signedBy i signature).visible = (fields.sealed i.bytes signature).encodedSize :=
  length_written _

theorem signs_signedBy (hf : (fields.sealed i.bytes signature).Fits .short)
    (h : fields.Lacks .signature) :
    (fields.signedBy i signature).Signs (fields.named i.bytes)
      ((fields.named i.bytes).written .short) signature := by
  obtain ⟨hnamed, hsignature⟩ := fits_sealed_iff.mp hf
  have hlacks : (fields.named i.bytes).Lacks .signature :=
    lacks_append_iff.mpr ⟨h, by simp [Lacks, Tag.signerId, Tag.signature]⟩
  refine ⟨hlacks, Field.encodeAll_eq_ok_iff.mpr ⟨hnamed, rfl⟩, _, [],
    Field.encode_eq_ok_iff.mpr ⟨hsignature, rfl⟩, ?_⟩
  rw [signedBy, Certificate.visibleBytes_ofBytes, written_sealed, List.append_nil]

theorem lookup_named_of_ne (i : EntityId) (h : fields.Lacks t) (ht : t ≠ .signerId) :
    (fields.named i.bytes).lookup t = none := by
  rw [named, lookup_append_of_ne ht, lookup_eq_none h]

theorem lookup_named_signerId (i : EntityId) (h : fields.Lacks .signerId) :
    (fields.named i.bytes).lookup .signerId = some i.bytes := by
  rw [named, List.lookup_append, lookup_eq_none h, List.lookup_cons_self, Option.none_or]

end FieldList

namespace Attestation

variable {fields : FieldList} {suite : Suite} {signature : Bytes} {signer : EntityId}
variable {keys : EntityKeys}

/-- What was signed with a key of the signer is trusted, if it nests no certificate and names no
artifact. -/
theorem attestation_signedBy {r : Resolvers} {o : AttestOptions}
    (hf : (fields.sealed signer.bytes signature).Fits .short)
    (hsigner : fields.Lacks .signerId) (hsignature : fields.Lacks .signature)
    (hauthor : fields.Lacks .authorId) (hchain : fields.Lacks .chainCertificate)
    (hartifact : fields.Lacks .artifactId) (ho : o.validateContract = false)
    (hk : r.entities signer o.height = .ok keys) (hne : keys.signing ≠ [])
    (hv : suite.verify keys.signing signature ((fields.named signer.bytes).written .short) = true) :
    (fields.signedBy signer signature).attestation suite r o =
      .ok ⟨signer, (fields.signedBy signer signature).visible, 0⟩ := by
  have hs := FieldList.signs_signedBy hf hsignature
  have hsize : (fields.signedBy signer signature).visible =
      Certificate.signedSize ((fields.named signer.bytes).written .short) signature := by
    rw [FieldList.visible_signedBy, FieldList.encodedSize_sealed, Certificate.signedSize,
      FieldList.length_written]
  have hvouched : Vouched suite r.entities o.height (fields.named signer.bytes)
      ((fields.named signer.bytes).written .short) signature signer := by
    refine ⟨FieldList.lookup_named_signerId signer hsigner, fun value hvalue => ?_, keys, hk, hne, hv⟩
    rw [FieldList.lookup_named_of_ne signer hauthor (by decide)] at hvalue
    cases hvalue
  rw [Certificate.attestation, attestAt_eq_ok_iff_trusted (Nat.le_refl maxChainDepth), Nat.sub_self]
  refine .single ⟨⟨_, _, hs, hvouched, hsize⟩, none, ?_, by simp, by simp [ho]⟩ ?_
  · exact FieldList.lookup_named_of_ne signer hartifact (by decide)
  · exact FieldList.lookup_named_of_ne signer hchain (by decide)

end Attestation

end SignedLedger
