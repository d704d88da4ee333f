import SignedLedger.Proofs.StoredHistory

/-! The hash chain. A stored certificate says what its record says, and carries the digest of the
certificate that is stored one height below, although the record of that block was written again
when it was followed. -/

namespace SignedLedger

namespace Tables

/-- The certificate of block `b` is whole, and what it says agrees with the record and with the
block below. -/
structure Attests (s : BlockSigner) (t : Tables) (b : Block) : Prop where
  whole : b.certificate.visible = b.certificate.raw.length
  parsed : Certificate.parse b.certificate.raw = .ok b.certificate
  type : b.certificate.certificateType = .ok (some .block)
  id : b.certificate.Carries .blockId b.id.bytes
  previous : b.certificate.Carries .previousBlockId b.previous.bytes
  height : b.certificate.Carries .blockHeight (bigEndian 8 b.height.toNat)
  lowest : b.height = 0 → b.certificate.Carries .previousBlockHash (FixedBytes.zero 32).toList
  below : b.height ≠ 0 → ∃ p, t.blockAt? (b.height - 1) = .ok (some p) ∧
    b.certificate.Carries .previousBlockHash (p.certificate.digest s.suite).toList

variable {s : BlockSigner} {t : Tables} {h : BlockHistory} {e : HistoryEntry}

/-- The digest in a certificate is taken from the entry before. -/
theorem ListsBlocks.carries_below (ht : t.ListsBlocks s h) (he : e ∈ h) (h0 : e.block.height ≠ 0) :
    ∃ p, t.blockAt? (e.block.height - 1) = .ok (some p) ∧
      e.block.certificate.Carries .previousBlockHash (p.certificate.digest s.suite).toList := by
  obtain ⟨n, hn⟩ := List.mem_iff_getElem?.mp he
  have hheight := ht.valid.height hn
  cases n with
  | zero => exact absurd (UInt64.toNat_inj.mp hheight) h0
  | succ n =>
    obtain ⟨hlt, _⟩ := List.getElem?_eq_some_iff.mp hn
    have hbelow := List.getElem?_eq_getElem (Nat.lt_of_succ_lt hlt)
    have hp := ht.valid.precedes hbelow hn
    have hsub : e.block.height - 1 = h[n].block.height := by
      rw [hp.height_eq, UInt64.add_sub_cancel]
    refine ⟨h[n].block, ?_, hp.certifies.carries_previousBlockHash⟩
    rw [ht.blockAt?, hsub, ht.valid.height hbelow, hbelow]
    rfl

theorem ListsBlocks.carries_zero (ht : t.ListsBlocks s h) (he : e ∈ h) (h0 : e.block.height = 0) :
    e.block.certificate.Carries .previousBlockHash (FixedBytes.zero 32).toList := by
  obtain ⟨n, hn⟩ := List.mem_iff_getElem?.mp he
  have hzero : 0 = n := by
    rw [← ht.valid.height hn, h0]
    rfl
  subst hzero
  exact (ht.valid.isRoot hn).certifies.carries_previousBlockHash

theorem ListsBlocks.attests_entry (ht : t.ListsBlocks s h) (he : e ∈ h) : t.Attests s e.block := by
  obtain ⟨header, hid, hprevious, hheight, hc⟩ := ht.valid.exists_header he
  have hid : header.id = e.block.id := hid
  exact {
    whole := by rw [hc.raw_eq, Certificate.length_visibleBytes]
    parsed := hc.parse_raw
    type := hc.certificateType_eq
    id := hid ▸ hc.carries_blockId
    previous := hprevious ▸ hc.carries_previousBlockId
    height := hheight ▸ hc.carries_blockHeight
    lowest := ht.carries_zero he
    below := ht.carries_below he }

end Tables

theorem Suite.checksum_verify {id : UInt16} {declared actual : Nat} {key message signature : Bytes}
    (h : (checksum id declared actual).sign key message = .ok signature) :
    (checksum id declared actual).verify key signature message = true := by
  simp only [checksum] at h ⊢
  rw [h]
  exact beq_self_eq_true signature

/-- What knows the key of the signer of the sample, and nothing else. -/
def Sample.resolvers : Resolvers :=
  ⟨fun _ _ => .ok ⟨[], [7]⟩, .none, .none⟩

namespace Store

/-- Every stored block is attested by its certificate, and whoever knows the key of the signer can
check that. -/
theorem Reachable.attests {s : Store} (hs : s.Reachable) {key value : Bytes}
    (hv : s.tables.get? .blocks key = some value) :
    ∃ b, Block.decode value = .ok b ∧ b.id.bytes = key ∧ s.tables.Attests s.signer b ∧
      ∀ (r : Resolvers) (o : AttestOptions) (keys : EntityKeys), o.validateContract = false →
        r.entities s.signer.id o.height = .ok keys → keys.signing ≠ [] →
        (∀ message signature, s.suite.sign s.signer.privateKey message = .ok signature →
          s.suite.verify keys.signing signature message = true) →
        b.certificate.attestation s.suite r o = .ok ⟨s.signer.id, b.size, 0⟩ := by
  obtain ⟨h, hh⟩ := hs.exists_history
  obtain ⟨e, he, rfl, rfl⟩ := hh.get?_blocks_iff.mp hv
  obtain ⟨_, _, _, _, hc⟩ := hh.valid.exists_header he
  exact ⟨e.block, hh.valid.decode_encode he, rfl, hh.attests_entry he,
    fun r o keys ho hk hne hsuite => hc.attestation_eq ho hk hne hsuite⟩

theorem attests_sample :
    ∃ value b p, Sample.store.tables.get? .blocks (⟨.ofNat 16 5⟩ : BlockId).bytes = some value ∧
    Block.decode value = .ok b ∧ b.height = 2 ∧ Sample.store.tables.Attests Sample.store.signer b ∧
    Sample.store.tables.blockAt? 1 = .ok (some p) ∧
    b.certificate.Carries .previousBlockHash (p.certificate.digest Sample.store.suite).toList ∧
    b.certificate.attestation Sample.store.suite Sample.resolvers {} =
      .ok ⟨Sample.store.signer.id, b.size, 0⟩ := by
  have hheight : (Sample.store.tables.get? .blocks (⟨.ofNat 16 5⟩ : BlockId).bytes).map
      (fun value => (Block.decode value).map Block.height) = some (.ok 2) := by decide +kernel
  obtain ⟨value, hv, hdecoded⟩ := Option.map_eq_some_iff.mp hheight
  obtain ⟨b, hb, _, ha, hattest⟩ := Sample.reachable.attests hv
  have htwo : b.height = 2 := by simpa [hb] using hdecoded
  obtain ⟨p, hp, hcarries⟩ := ha.below (by rw [htwo]; decide)
  rw [htwo] at hp
  refine ⟨value, b, p, hv, hb, htwo, ha, hp, hcarries,
    hattest Sample.resolvers {} ⟨[], [7]⟩ rfl rfl (by simp) ?_⟩
  intro message signature hsign
  rw [suite, Sample.signer_store] at hsign ⊢
  exact Suite.checksum_verify hsign

end Store

end SignedLedger
