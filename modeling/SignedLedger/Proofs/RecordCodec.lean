import SignedLedger.Proofs.VisiblePart
import SignedLedger.Store.Record

/-! Records read back. A record that was written decodes to itself, except that its certificate is
cut down to the visible bytes, as long as the size of the certificate fits the eight bytes for it.
-/

namespace SignedLedger

theorem identifierAt_eq {k : Identifier.Kind} {i : Identifier k} {b : Bytes} {n : Nat}
    (hb : (b.drop n).take 16 = i.bytes) (h : n + 16 ≤ b.length) : identifierAt b n h = i :=
  Identifier.bytes_inj.mp hb

theorem certificateAt_eq {c : Certificate} {b : Bytes} {n : Nat} (kind : RecordKind)
    (hb : b.drop n = sizedCertificate c) (hc : c.visible < 2 ^ 64) :
    certificateAt kind b n = .ok c.shown := by
  have hv : c.visible < 256 ^ 8 := hc
  have hsize : (b.drop n).take 8 = bigEndian 8 c.visible := by
    rw [hb, sizedCertificate, List.take_left' (length_bigEndian 8 _)]
  have hraw : b.drop (n + 8) = c.visibleBytes := by
    rw [← List.drop_drop, hb, sizedCertificate, List.drop_left' (length_bigEndian 8 _)]
  simp [certificateAt, hsize, hraw, ofBigEndian_bigEndian hv, Certificate.shown]

theorem sizedCertificate_shown (c : Certificate) :
    sizedCertificate c.shown = sizedCertificate c := by
  rw [sizedCertificate, sizedCertificate, c.visible_shown, c.visibleBytes_shown]

namespace Block

/-- The block as it is read back. -/
def shown (b : Block) : Block :=
  { b with certificate := b.certificate.shown }

theorem length_encode (b : Block) : b.encode.length = headerSize + b.certificate.visible := by
  simp [encode, sizedCertificate, headerSize]
  omega

theorem decode_eq_error {b : Bytes} {e : StoreError} (h : decode b = .error e) :
    ∃ fault, e = .corruptRecord .block fault := by
  unfold decode at h
  split at h
  · cases h
    exact ⟨_, rfl⟩
  · rcases bind_eq_error_iff.mp h with h | ⟨c, _, h⟩
    · unfold certificateAt at h
      dsimp only at h
      split at h
      · cases h
      · cases h
        exact ⟨_, rfl⟩
    · cases h

theorem decode_encode {b : Block} (h : b.certificate.visible < 2 ^ 64) :
    decode b.encode = .ok b.shown := by
  have hl : ¬ b.encode.length < headerSize := by
    rw [b.length_encode]
    omega
  have hc : certificateAt .block b.encode 56 = .ok b.certificate.shown :=
    certificateAt_eq .block (by simp [encode, List.drop_append, List.drop_of_length_le]) h
  have hheight : (b.encode.drop 48).take 8 = bigEndian 8 b.height.toNat := by
    simp [encode, List.drop_append, List.drop_of_length_le]
  have hlt : b.height.toNat < 256 ^ 8 := b.height.toNat_lt
  rw [decode, dif_neg hl, hc]
  simp only [ok_bind, pure_eq_ok, shown, Except.ok.injEq, Block.mk.injEq, hheight,
    ofBigEndian_bigEndian hlt, UInt64.ofNat_toNat, and_true]
  refine ⟨identifierAt_eq ?_ _, identifierAt_eq ?_ _, identifierAt_eq ?_ _⟩ <;>
    simp [encode, List.drop_append, List.drop_of_length_le]

end Block

namespace RecordedTransaction

/-- The transaction as it is read back. -/
def shown (r : RecordedTransaction) : RecordedTransaction :=
  { r with certificate := r.certificate.shown }

theorem length_encode (r : RecordedTransaction) :
    r.encode.length = headerSize + r.certificate.visible := by
  simp [encode, sizedCertificate, headerSize]
  omega

theorem decode_encode {r : RecordedTransaction} (h : r.certificate.visible < 2 ^ 64) :
    decode r.encode = .ok r.shown := by
  have hl : ¬ r.encode.length < headerSize := by
    rw [r.length_encode]
    omega
  have hc : certificateAt .transaction r.encode 64 = .ok r.certificate.shown :=
    certificateAt_eq .transaction (by simp [encode, List.drop_append, List.drop_of_length_le]) h
  rw [decode, dif_neg hl, hc]
  simp only [ok_bind, pure_eq_ok, shown, Except.ok.injEq, RecordedTransaction.mk.injEq, and_true]
  refine ⟨identifierAt_eq ?_ _, identifierAt_eq ?_ _, identifierAt_eq ?_ _,
    identifierAt_eq ?_ _⟩ <;>
  simp [encode, List.drop_append, List.drop_of_length_le]

theorem encode_shown (r : RecordedTransaction) : r.shown.encode = r.encode := by
  simp only [encode, shown, sizedCertificate_shown]

end RecordedTransaction

theorem Artifact.decode_encode (a : Artifact) : decode a.encode = .ok a := by
  have hl : a.encode.length = recordSize := by simp [encode, recordSize]
  rw [decode, dif_pos hl]
  simp only [Except.ok.injEq]
  obtain ⟨id, firstBlock, first, lastBlock, last⟩ := a
  simp only [Artifact.mk.injEq]
  refine ⟨identifierAt_eq ?_ _, identifierAt_eq ?_ _, identifierAt_eq ?_ _, identifierAt_eq ?_ _,
    identifierAt_eq ?_ _⟩ <;>
    simp [encode, List.drop_append, List.drop_of_length_le, List.take_of_length_le]

theorem bigEndian_inj {width m n : Nat} (hm : m < 256 ^ width) (hn : n < 256 ^ width) :
    bigEndian width m = bigEndian width n ↔ m = n := by
  constructor
  · intro h
    have hread := congrArg ofBigEndian h
    rwa [ofBigEndian_bigEndian hm, ofBigEndian_bigEndian hn] at hread
  · rintro rfl
    rfl

theorem heightKey_inj {h k : UInt64} : heightKey h = heightKey k ↔ h = k := by
  have hh : h.toNat < 256 ^ 8 := h.toNat_lt
  have hk : k.toNat < 256 ^ 8 := k.toNat_lt
  rw [heightKey, heightKey, bigEndian_inj hh hk, UInt64.toNat_inj]

@[simp] theorem decodeBlockId_bytes (id : BlockId) : decodeBlockId id.bytes = .ok id := by
  simp [decodeBlockId]

end SignedLedger
