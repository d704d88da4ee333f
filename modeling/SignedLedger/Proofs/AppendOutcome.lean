import SignedLedger.Proofs.SigningOutcome
import SignedLedger.Proofs.StoredHistory

/-! When an append succeeds. A block certificate is built whenever the signer signs and the values
fit their headers. What is left to fail is reading the head, and recording the transactions. -/

namespace SignedLedger

namespace BlockSigner

/-- Every message is signed, with a signature of the declared size. -/
def Signs (s : BlockSigner) : Prop :=
  ∀ message, ∃ signature, s.suite.sign s.privateKey message = .ok signature ∧
    signature.length = s.suite.signatureSize

/-- The signature and the wrapped transactions fit the headers of their fields. -/
structure Fits (s : BlockSigner) (pending : List Certificate) : Prop where
  signature : s.suite.signatureSize ≤ HeaderWidth.short.maxValue
  wrapped : ∀ c ∈ pending, c.visible ≤ HeaderWidth.short.maxValue

/-- The sizes that decide whether a block certificate can be written: that of the signature and those
of the wrapped transactions. -/
def sizes (s : BlockSigner) (pending : List Certificate) : List Nat :=
  s.suite.signatureSize :: pending.map Certificate.visible

variable {s : BlockSigner} {now : UInt64} {h : BlockHeader} {pending more : List Certificate}
variable {signature : Bytes} {n : Nat}

theorem Fits.mono (hf : s.Fits pending) (hm : more ⊆ pending) : s.Fits more :=
  ⟨hf.signature, fun c hc => hf.wrapped c (hm hc)⟩

theorem fits_iff : s.Fits pending ↔ ∀ n ∈ s.sizes pending, n ≤ HeaderWidth.short.maxValue := by
  simp only [sizes, List.forall_mem_cons, List.forall_mem_map]
  exact ⟨fun hf => ⟨hf.signature, hf.wrapped⟩, fun hf => ⟨hf.1, hf.2⟩⟩

theorem mem_sizes_mono (hm : more ⊆ pending) (hn : n ∈ s.sizes more) : n ∈ s.sizes pending := by
  rcases List.mem_cons.mp hn with rfl | hn
  · exact List.mem_cons_self
  · exact List.mem_cons_of_mem _ (List.map_subset _ hm hn)

theorem Certifies.fits {c : Certificate} (hc : s.Certifies h pending c) : s.Fits pending :=
  ⟨hc.signatureSize_le, fun _ hd => hc.visible_le hd⟩

/-- The values of the header are short, whatever they are. -/
theorem length_of_mem_contents (hs : signature.length = s.suite.signatureSize) {f : Tag × Bytes}
    (hf : f ∈ s.contents now h pending signature) :
    f.2.length ≤ 32 ∨ f.2.length ∈ s.sizes pending := by
  have hheader : ∀ f ∈ s.layout now h [], f.2.length ≤ 32 := by
    simp [layout, Tag.word16, Tag.word64, Tag.identifier, Tag.digest, CertificateType.field,
      h.previousDigest.length_toList]
  have hsplit : s.layout now h pending =
      s.layout now h [] ++ pending.map Tag.wrappedTransaction.certificate := by
    simp [layout]
  simp only [contents, FieldList.sealed, FieldList.named, hsplit, List.mem_append, List.mem_singleton,
    or_assoc] at hf
  rcases hf with hf | hf | rfl | rfl
  · exact .inl (hheader f hf)
  · obtain ⟨c, hc, rfl⟩ := List.mem_map.mp hf
    refine .inr (List.mem_cons_of_mem _ ?_)
    simpa [Tag.certificate] using ⟨c, hc, rfl⟩
  · exact .inl (by simp)
  · exact .inr (hs ▸ List.mem_cons_self)

/-- Nothing but the sizes stands in the way of a signer that signs every message. -/
theorem Signs.certificate_eq_error (hs : s.Signs) {e : CertificateError}
    (hc : s.certificate now h pending = .error e) :
    ∃ n ∈ s.sizes pending, HeaderWidth.short.maxValue < n ∧ e = .codec (.valueTooLarge n) := by
  obtain ⟨signature, hsign, hsize⟩ := hs (((s.layout now h pending).named s.id.bytes).written .short)
  have hne : s.layout now h pending ≠ [] := by simp [layout]
  rw [certificate_eq] at hc
  obtain ⟨f, hf, hlong, rfl⟩ :=
    FieldList.sign_eq_error_of_signature s.id.length_bytes hne hsign hsize hc
  rcases length_of_mem_contents hsize hf with hshort | hn
  · exact absurd (Nat.lt_of_lt_of_le hlong hshort) (by decide)
  · exact ⟨_, hn, hlong, rfl⟩

theorem Signs.exists_certificate (hs : s.Signs) (hf : s.Fits pending) (now : UInt64)
    (h : BlockHeader) : ∃ c, s.certificate now h pending = .ok c := by
  cases hc : s.certificate now h pending with
  | ok c => exact ⟨c, rfl⟩
  | error e =>
    obtain ⟨n, hn, hlarge, _⟩ := hs.certificate_eq_error hc
    exact absurd (fits_iff.mp hf n hn) (Nat.not_le.mpr hlarge)

end BlockSigner

namespace Tables

variable {s : BlockSigner} {now : UInt64} {fresh : BlockId} {pending : List Certificate}
variable {t u : Tables} {b : Block} {e : StoreError} {log : TransactionLog}

theorem head?_eq_error (h : t.head? = .error e) : ∃ fault, e = .corruptRecord .block fault := by
  unfold head? load? at h
  split at h
  · cases h
  · rename_i b _
    cases hd : Block.decode b with
    | ok head => simp [hd] at h
    | error cause =>
      rw [hd] at h
      cases h
      exact Block.decode_eq_error hd

theorem createRoot_eq_error (h : createRoot s now t = .error e) :
    ∃ cause, s.certificate now .root [] = .error cause ∧ e = .certificate cause := by
  rcases bind_eq_error_iff.mp h with h | ⟨c, _, h⟩
  · obtain ⟨cause, hc, rfl⟩ := mapError_eq_error_iff.mp h
    exact ⟨cause, hc, rfl⟩
  · cases h

theorem headOrRoot_eq_error (h : headOrRoot s now t = .error e) :
    t.head? = .error e ∨ createRoot s now t = .error e := by
  rcases bind_eq_error_iff.mp h with h | ⟨found, _, h⟩
  · exact .inl h
  · cases found with
    | none => exact .inr h
    | some head => cases h

/-- That the certificate of a block, or that of a missing root before it, is not built. -/
def Uncertified (s : BlockSigner) (now : UInt64) (pending : List Certificate)
    (e : StoreError) : Prop :=
  ∃ header more cause, more ⊆ pending ∧ s.certificate now header more = .error cause ∧
    e = .certificate cause

theorem Uncertified.tooLarge (h : Uncertified s now pending e) (hs : s.Signs) :
    ∃ n ∈ s.sizes pending, HeaderWidth.short.maxValue < n ∧
      e = .certificate (.codec (.valueTooLarge n)) := by
  obtain ⟨header, more, cause, hm, hc, rfl⟩ := h
  obtain ⟨n, hn, hlarge, rfl⟩ := hs.certificate_eq_error hc
  exact ⟨n, BlockSigner.mem_sizes_mono hm hn, hlarge, rfl⟩

theorem Uncertified.not_fits (h : Uncertified s now pending e) (hs : s.Signs) : ¬ s.Fits pending := by
  intro hf
  obtain ⟨n, hn, hlarge, _⟩ := h.tooLarge hs
  exact absurd (BlockSigner.fits_iff.mp hf n hn) (Nat.not_le.mpr hlarge)

theorem append_eq_error (h : append s fresh now pending t = .error e) :
    t.head? = .error e ∨ Uncertified s now pending e ∨
      ∃ previous v, headOrRoot s now t = .ok (previous, v) ∧ s.Fits pending ∧
        v.recordAll fresh pending = .error e := by
  rcases bind_eq_error_iff.mp h with h | ⟨⟨previous, v⟩, hp, h⟩
  · rcases headOrRoot_eq_error h with h | h
    · exact .inl h
    · obtain ⟨cause, hc, rfl⟩ := createRoot_eq_error h
      exact .inr (.inl ⟨.root, [], cause, List.nil_subset _, hc, rfl⟩)
  rcases bind_eq_error_iff.mp h with h | ⟨c, hc, h⟩
  · obtain ⟨cause, hc, rfl⟩ := mapError_eq_error_iff.mp h
    exact .inr (.inl ⟨_, pending, cause, List.Subset.refl _, hc, rfl⟩)
  have hfits := (BlockSigner.certifies_of_certificate (mapError_eq_ok_iff.mp hc)).fits
  rcases bind_eq_error_iff.mp h with h | ⟨w, _, h⟩
  · exact .inr (.inr ⟨previous, v, hp, hfits, h⟩)
  · cases h

/-- Without a root, the first signature to be written is that of the root. -/
theorem append_of_overlong (hs : s.Signs)
    (hlarge : HeaderWidth.short.maxValue < s.suite.signatureSize) (hhead : t.head? = .ok none) :
    append s fresh now pending t =
      .error (.certificate (.codec (.valueTooLarge s.suite.signatureSize))) := by
  have hroot : s.certificate now .root [] =
      .error (.codec (.valueTooLarge s.suite.signatureSize)) := by
    cases hc : s.certificate now .root [] with
    | ok c =>
      have hle := (BlockSigner.certifies_of_certificate hc).signatureSize_le
      exact absurd hle (Nat.not_le.mpr hlarge)
    | error e =>
      obtain ⟨n, hn, _, rfl⟩ := hs.certificate_eq_error hc
      rw [List.mem_singleton.mp hn]
  have hcreate : createRoot s now t =
      .error (.certificate (.codec (.valueTooLarge s.suite.signatureSize))) :=
    congrArg (fun r => r.mapError StoreError.certificate >>= _) hroot
  rw [append, headOrRoot, hhead, ok_bind, hcreate, error_bind]

/-- A batch that extends the log is recorded once its block certificate is built. -/
theorem Indexes.append_eq_error (h : t.Indexes log) {xs : List Transaction}
    (hx : ∀ x ∈ xs, Transaction.parse x.certificate = .ok x)
    (hv : TransactionLog.Valid (log ++ xs.map (LogEntry.mk fresh)))
    (ha : append s fresh now (xs.map Transaction.certificate) t = .error e) :
    t.head? = .error e ∨ Uncertified s now (xs.map Transaction.certificate) e := by
  rcases Tables.append_eq_error ha with hhead | hc | ⟨previous, v, hp, hf, hr⟩
  · exact .inl hhead
  · exact .inr hc
  · have hsmall : ∀ c ∈ xs.map Transaction.certificate, c.visible < 2 ^ 64 := fun c hc =>
      Nat.lt_of_le_of_lt (hf.wrapped c hc) (by decide)
    have hs := (headOrRoot_indexes h hp).recordAll fresh hsmall
    rw [hr, hv.recordAll_of_prefix hx (List.prefix_refl _)] at hs
    cases hs

/-! The head stays readable: what is written for it is the record of a block whose size fits. -/

def ReadsHead (t : Tables) : Prop :=
  ∃ head, t.head? = .ok head

theorem readsHead_of_get? (hb : b.certificate.visible < 2 ^ 64)
    (h : t.get? .head headKey = some b.encode) : t.ReadsHead :=
  ⟨some b.shown, by rw [head?, load?, h]; simp [Block.decode_encode hb]⟩

theorem ReadsHead.ensureRoot (h : t.ReadsHead) (he : ensureRoot s now t = .ok (b, u)) :
    u.ReadsHead := by
  rcases ensureRoot_eq_ok he with ⟨_, rfl⟩ | ⟨_, hc⟩
  · exact h
  · obtain ⟨c, hcert, rfl, rfl⟩ := createRoot_eq_ok hc
    have hroot := BlockHistory.valid_root hcert
    exact readsHead_of_get? (hroot.small _ List.mem_cons_self) (by simp)

theorem readsHead_append (ha : append s fresh now pending t = .ok (b, u))
    (hsize : s.expectedSize pending < 2 ^ 64) : u.ReadsHead := by
  obtain ⟨previous, v, w, c, _, hc, _, rfl, rfl⟩ := append_eq_ok ha
  have hb : ((previous.nextHeader s.suite fresh).block c).certificate.visible < 2 ^ 64 :=
    hc.visible_eq ▸ hsize
  exact readsHead_of_get? hb (by simp [link])

end Tables

namespace Sample

theorem signs_signer : signer.Signs :=
  fun _ => ⟨_, rfl, by simp [signer, Suite.checksum]⟩

end Sample

end SignedLedger
