import SignedLedger.Proofs.SignedCertificate
import SignedLedger.Store.BlockSigner

/-! Block certificates. What one is built from can be read back: the header fields stand in it once
each, and the wrapped values are the visible bytes of the transactions, whatever these bytes are. -/

namespace SignedLedger

namespace BlockSigner

variable {s : BlockSigner} {now : UInt64} {h : BlockHeader} {pending : List Certificate}
variable {c : Certificate} {t : Tag} {signature : Bytes}

theorem expectedSize_eq (s : BlockSigner) (now : UInt64) (h : BlockHeader)
    (pending : List Certificate) :
    s.expectedSize pending =
      ((s.layout now h pending).named s.id.bytes).encodedSize +
        encodedSize s.suite.signatureSize := by
  have hw : FieldList.encodedSize (pending.map Tag.wrappedTransaction.certificate) =
      (pending.map fun c => encodedSize c.visible).sum := by
    simp [FieldList.encodedSize, Tag.certificate, Function.comp_def]
  rw [FieldList.encodedSize_named, layout, FieldList.encodedSize_append, hw]
  simp [expectedSize, FieldList.encodedSize, Tag.word16, Tag.word64, Tag.identifier, Tag.digest,
    CertificateType.field, h.previousDigest.length_toList]
  omega

def signed (s : BlockSigner) (now : UInt64) (h : BlockHeader) (pending : List Certificate)
    (signature : Bytes) : Certificate :=
  (s.layout now h pending).signedBy s.id signature

def contents (s : BlockSigner) (now : UInt64) (h : BlockHeader) (pending : List Certificate)
    (signature : Bytes) : FieldList :=
  (s.layout now h pending).sealed s.id.bytes signature

theorem visibleBytes_signed :
    (s.signed now h pending signature).visibleBytes =
      (s.contents now h pending signature).written .short :=
  Certificate.visibleBytes_ofBytes _

/-- The size that is computed beforehand is always the size of the certificate. -/
theorem visible_signed (hs : signature.length = s.suite.signatureSize) :
    (s.signed now h pending signature).visible = s.expectedSize pending := by
  rw [signed, FieldList.visible_signedBy, FieldList.encodedSize_sealed, s.expectedSize_eq now h, hs]

/-- That `c` is a certificate of the block with header `h` and transactions `pending`, signed by `s`
at some time. -/
def Certifies (s : BlockSigner) (h : BlockHeader) (pending : List Certificate)
    (c : Certificate) : Prop :=
  ∃ now signature,
    s.suite.sign s.privateKey (((s.layout now h pending).named s.id.bytes).written .short) =
      .ok signature ∧
    signature.length = s.suite.signatureSize ∧ (s.contents now h pending signature).Fits .short ∧
    c = s.signed now h pending signature

theorem certifies_of_certificate (hc : s.certificate now h pending = .ok c) :
    s.Certifies h pending c := by
  simp only [certificate, bind_eq_ok_iff, FieldList.sign_eq_ok_iff] at hc
  obtain ⟨c', ⟨_, _, signature, hsign, hsize, hf, hc'⟩, hc⟩ := hc
  have hs : c' = s.signed now h pending signature := hc'
  have hraw : c'.raw.length = s.expectedSize pending := hs ▸ visible_signed hsize
  simp only [hraw, ne_eq, not_true_eq_false, if_false, pure_eq_ok, Except.ok.injEq] at hc
  exact ⟨now, signature, hsign, hsize, hf, hc.symm.trans hs⟩

/-- Whether a field with the tag `t` stands in the certificate is up to the header, unless the tag
is that of the wrapped transactions. -/
theorem filter_contents (ht : Tag.wrappedTransaction ≠ t) :
    (s.contents now h pending signature).filter (fun f => f.1 = t) =
      (s.contents now h [] signature).filter (fun f => f.1 = t) := by
  have hw : (pending.map Tag.wrappedTransaction.certificate).filter (fun f => f.1 = t) = [] := by
    rw [List.filter_eq_nil_iff]
    rintro _ hf
    obtain ⟨c, _, rfl⟩ := List.mem_map.mp hf
    simp [Tag.certificate, ht]
  simp only [contents, layout, FieldList.sealed, FieldList.named, List.filter_append, hw,
    List.map_nil, List.filter_nil]

def tags : List Tag :=
  [.version, .timestamp, .cryptoSuite, .certificateType, .blockId, .previousBlockId,
   .previousBlockHash, .blockHeight, .wrappedTransaction]

theorem lacks_layout (ht : t ∉ tags) : (s.layout now h pending).Lacks t := by
  rintro f hf rfl
  refine ht ?_
  rcases List.mem_append.mp hf with hf | hf
  · have hm : f.1 ∈ tags.take 8 := List.mem_map_of_mem (f := Prod.fst) hf
    exact List.mem_of_mem_take hm
  · obtain ⟨c, _, rfl⟩ := List.mem_map.mp hf
    simp [tags, Tag.certificate]

theorem map_filter_contents_wrapped :
    ((s.contents now h pending signature).filter fun f => f.1 = .wrappedTransaction).map Prod.snd =
      pending.map Certificate.visibleBytes := by
  have hw : (pending.map Tag.wrappedTransaction.certificate).filter
      (fun f => f.1 = .wrappedTransaction) = pending.map Tag.wrappedTransaction.certificate := by
    rw [List.filter_eq_self]
    rintro _ hf
    obtain ⟨c, _, rfl⟩ := List.mem_map.mp hf
    simp [Tag.certificate]
  simp only [contents, layout, FieldList.sealed, FieldList.named, List.filter_append, hw,
    List.map_append, List.map_map]
  simp [Tag.word16, Tag.word64, Tag.identifier, Tag.digest, CertificateType.field, Tag.certificate,
    Tag.version, Tag.timestamp, Tag.cryptoSuite, Tag.certificateType, Tag.signerId, Tag.signature,
    Tag.blockId, Tag.previousBlockId, Tag.previousBlockHash, Tag.blockHeight,
    Tag.wrappedTransaction, Function.comp_def]

namespace Certifies

variable (hc : s.Certifies h pending c)

include hc

theorem raw_eq : c.raw = c.visibleBytes := by
  obtain ⟨_, _, _, _, _, rfl⟩ := hc
  exact (Certificate.visibleBytes_ofBytes _).symm

theorem shown_eq : c.shown = c := by
  obtain ⟨_, _, _, _, _, rfl⟩ := hc
  exact Certificate.shown_ofBytes _

theorem visible_eq : c.visible = s.expectedSize pending := by
  obtain ⟨_, _, _, hs, _, rfl⟩ := hc
  exact visible_signed hs

theorem signatureSize_le : s.suite.signatureSize ≤ HeaderWidth.short.maxValue := by
  obtain ⟨_, _, _, hs, hf, _⟩ := hc
  exact hs ▸ (FieldList.fits_sealed_iff.mp hf).2

theorem visible_le {d : Certificate} (hd : d ∈ pending) :
    d.visible ≤ HeaderWidth.short.maxValue := by
  obtain ⟨now, signature, _, _, hf, _⟩ := hc
  have hm : Tag.wrappedTransaction.certificate d ∈ s.contents now h pending signature := by
    simp only [contents, layout, FieldList.sealed, FieldList.named, List.mem_append, List.mem_map]
    exact .inl (.inl (.inr ⟨d, hd, rfl⟩))
  simpa [Tag.certificate] using hf _ hm

theorem parse_raw : Certificate.parse c.raw = .ok c := by
  obtain ⟨_, _, _, _, hf, rfl⟩ := hc
  exact Certificate.parse_written hf

theorem carries {value : Bytes} (ht : Tag.wrappedTransaction ≠ t)
    (hh : ∀ now signature,
      (s.contents now h [] signature).filter (fun f => f.1 = t) = [(t, value)]) :
    c.Carries t value := by
  obtain ⟨now, signature, _, _, hf, rfl⟩ := hc
  exact Certificate.carries_of_written t hf visibleBytes_signed (by rw [filter_contents ht, hh])

theorem carries_blockId : c.Carries .blockId h.id.bytes :=
  hc.carries (by decide) fun _ _ => rfl

theorem carries_previousBlockId : c.Carries .previousBlockId h.previous.bytes :=
  hc.carries (by decide) fun _ _ => rfl

theorem carries_previousBlockHash : c.Carries .previousBlockHash h.previousDigest.toList :=
  hc.carries (by decide) fun _ _ => rfl

theorem carries_blockHeight : c.Carries .blockHeight (bigEndian 8 h.height.toNat) :=
  hc.carries (by decide) fun _ _ => rfl

theorem certificateType_eq : c.certificateType = .ok (some .block) := by
  have hcarries : c.Carries .certificateType (bigEndian 2 CertificateType.block.number.toNat) :=
    hc.carries (by decide) fun _ _ => rfl
  obtain ⟨f, _, hfield, hvalue⟩ := hcarries
  exact Certificate.certificateType_eq_some_iff.mpr ⟨f, hfield, hvalue⟩

/-- The wrapped values are found whatever fields they hold themselves. -/
theorem wrapped_eq : ∃ found, c.fieldsOf .wrappedTransaction = .ok found ∧
    found.map Field.value = pending.map Certificate.visibleBytes := by
  obtain ⟨now, signature, _, _, hf, rfl⟩ := hc
  refine ⟨_, Certificate.fieldsOf_of_written _ hf visibleBytes_signed, ?_⟩
  rw [FieldList.map_value_filter_placed, map_filter_contents_wrapped]

/-- Attesting the certificate succeeds, and leaves all of it visible. -/
theorem attestation_eq {r : Resolvers} {o : AttestOptions} {keys : EntityKeys}
    (ho : o.validateContract = false)
    (hk : r.entities s.id o.height = .ok keys) (hne : keys.signing ≠ [])
    (hv : ∀ message signature, s.suite.sign s.privateKey message = .ok signature →
      s.suite.verify keys.signing signature message = true) :
    c.attestation s.suite r o = .ok ⟨s.id, c.visible, 0⟩ := by
  obtain ⟨now, signature, hsign, _, hf, rfl⟩ := hc
  exact Attestation.attestation_signedBy hf (lacks_layout (by decide)) (lacks_layout (by decide))
    (lacks_layout (by decide)) (lacks_layout (by decide)) (lacks_layout (by decide)) ho hk hne
    (hv _ _ hsign)

end Certifies

end BlockSigner

end SignedLedger
