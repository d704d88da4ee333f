import Mathlib.Data.Set.Basic
import SignedLedger.Proofs.TrustedCertificate
import SignedLedger.Suite.Checksum

/-! Tamper evidence. Nothing is assumed of a suite but that it verifies no message that was not
signed. A certificate that is attested then starts with a message that the key of its signer has
signed, and what stays visible are the fields of that message and the signature. The same is true of
every certificate nested in it. -/

namespace SignedLedger

/-- The pairs of a public key and a message that was signed under it. -/
abbrev SignedMessages := Set (Bytes × Bytes)

/-- That the suite verifies signed messages only. -/
def Suite.Unforged (suite : Suite) (signed : SignedMessages) : Prop :=
  ∀ key signature message, suite.verify key signature message = true → (key, message) ∈ signed

namespace Certificate.Signs

variable {c : Certificate} {fields : FieldList} {message signature : Bytes}

theorem visibleBytes_message (h : c.Signs fields message signature) :
    (ofBytes message).visibleBytes = fields.written .short := by
  rw [visibleBytes_ofBytes, h.message_eq]

theorem fits_message (h : c.Signs fields message signature) : fields.Fits .short :=
  (Field.encodeAll_eq_ok_iff.mp h.encoded).1

theorem prefix_raw (h : c.Signs fields message signature) : message <+: c.raw := by
  have htake := h.raw_take
  rw [← htake]
  exact List.take_prefix message.length c.raw

/-- A look-up in the message alone finds what the signed fields say. -/
theorem field_message (h : c.Signs fields message signature) (t : Tag) :
    ∃ found, (ofBytes message).field t = .ok found ∧ found.map Field.value = fields.lookup t :=
  ⟨_, field_of_written t h.fits_message h.visibleBytes_message,
    FieldList.map_value_find?_placed .short fields t 0⟩

theorem fieldsOf_message (h : c.Signs fields message signature) :
    (ofBytes message).fieldsOf .signature = .ok [] := by
  have hnone : (fields.placed .short 0).filter (fun f => f.tag = .signature) = [] := by
    rw [List.filter_eq_nil_iff]
    intro f hf
    obtain ⟨before, after, rfl, _, _⟩ := FieldList.exists_of_mem_placed hf
    simpa using h.unsigned (f.tag, f.value) (by simp)
  rw [fieldsOf_of_written .signature h.fits_message h.visibleBytes_message, hnone]

/-- What stays visible are the fields of the message and the signature. -/
theorem fields_narrow (h : c.Signs fields message signature) :
    ∃ g : Field, g.tag = .signature ∧ g.value = signature ∧
      (c.narrow (signedSize message signature)).fields = (ofBytes message).fields ++ [.ok g] := by
  let start := 0 + (fields.written .short).length
  let g : Field :=
    ⟨.signature, signature, start, start + HeaderWidth.short.size + signature.length⟩
  have hplaced : FieldList.placed .short 0 (fields ++ [(.signature, signature)]) =
      fields.placed .short 0 ++ [g] :=
    FieldList.placed_append 0
  refine ⟨g, rfl, rfl, ?_⟩
  rw [fields_of_written h.fits h.visibleBytes_narrow,
    fields_of_written h.fits_message h.visibleBytes_message, hplaced, List.map_append]
  rfl

end Certificate.Signs

namespace Attestation

/-- That `c` starts with `message`, which the key of `signer` has signed, that the message names
`signer` and holds no signature itself, and that the fields of the message and one signature are
what can be seen of the first `size` bytes. -/
structure Opens (signed : SignedMessages) (entities : EntityResolver) (height : UInt64)
    (c : Certificate) (message : Bytes) (signer : EntityId) (size : Nat) : Prop where
  starts : message <+: c.raw
  signed : ∃ keys, entities signer height = .ok keys ∧ (keys.signing, message) ∈ signed
  named : (Certificate.ofBytes message).signer = .ok (some signer)
  declared : c.signer = .ok (some signer)
  unsigned : (Certificate.ofBytes message).fieldsOf .signature = .ok []
  visible : ∃ g : Field, g.tag = .signature ∧
    (c.narrow size).fields = (Certificate.ofBytes message).fields ++ [.ok g]

/-- That `c` and every certificate nested in it open with a message that was signed. -/
inductive Authentic (signed : SignedMessages) (entities : EntityResolver) (height : UInt64) :
    Certificate → Attestation → Prop
  | single {c : Certificate} {message : Bytes} {signer : EntityId} {size : Nat}
    (h : Opens signed entities height c message signer size)
    (hc : (Certificate.ofBytes message).field .chainCertificate = .ok none) :
    Authentic signed entities height c ⟨signer, size, 0⟩
  | nested {c : Certificate} {message : Bytes} {signer : EntityId} {size : Nat} {f : Field}
    {a : Attestation} (h : Opens signed entities height c message signer size)
    (hc : (Certificate.ofBytes message).field .chainCertificate = .ok (some f))
    (hn : Authentic signed entities height f.nested a) :
    Authentic signed entities height c ⟨signer, size, a.chainDepth + 1⟩

/-- That attesting tells signed messages from all other bytes. What is refused stays as it is. -/
structure TamperEvident (suite : Suite) (r : Resolvers) (o : AttestOptions)
    (signed : SignedMessages) : Prop where
  attested : ∀ c d a, Certificate.attest c suite r o = (.ok a, d) →
    Authentic signed r.entities o.height c a ∧ d = c.narrow a.visible
  refused : ∀ c : Certificate,
    (∀ signer keys message, c.signer = .ok (some signer) → r.entities signer o.height = .ok keys →
      message <+: c.raw → (keys.signing, message) ∉ signed) →
    ∃ e, c.attest suite r o = (.error e, c)

variable {suite : Suite} {r : Resolvers} {o : AttestOptions} {depth : Nat} {c : Certificate}
variable {a : Attestation} {fields : FieldList} {signer : EntityId} {size : Nat}
variable {signed : SignedMessages}

theorem attestation_eq_ok_iff_trusted :
    c.attestation suite r o = .ok a ↔ Trusted suite r o 0 c a := by
  rw [Certificate.attestation, attestAt_eq_ok_iff_trusted (Nat.le_refl maxChainDepth), Nat.sub_self]

theorem Stands.exists_opens (hsuite : suite.Unforged signed)
    (h : Stands suite r o depth c fields signer size) :
    ∃ message, Opens signed r.entities o.height c message signer size ∧
      ∀ t, ∃ found, (Certificate.ofBytes message).field t = .ok found ∧
        found.map Field.value = fields.lookup t := by
  obtain ⟨message, signature, hs, hv, rfl⟩ := h.signed
  obtain ⟨keys, hk, _, hverified⟩ := hv.verified
  refine ⟨message, ⟨hs.prefix_raw, ⟨keys, hk, hsuite _ _ _ hverified⟩, ?_, ?_, hs.fieldsOf_message,
    ?_⟩, hs.field_message⟩
  · obtain ⟨found, hfound, hvalue⟩ := hs.field_message .signerId
    rw [hv.named, Option.map_eq_some_iff] at hvalue
    obtain ⟨f, rfl, hf⟩ := hvalue
    exact (Certificate.identifier_eq_some_iff .signerId).mpr ⟨f, hfound, hf⟩
  · obtain ⟨f, hfound, hf, _⟩ := hs.field_of_lookup hv.named
    exact (Certificate.identifier_eq_some_iff .signerId).mpr ⟨f, hfound, hf⟩
  · obtain ⟨g, hg, _, hfields⟩ := hs.fields_narrow
    exact ⟨g, hg, hfields⟩

/-- What is trusted has been signed, level by level. -/
theorem Trusted.authentic (hsuite : suite.Unforged signed) (h : Trusted suite r o depth c a) :
    Authentic signed r.entities o.height c a := by
  induction h with
  | single h hc =>
    obtain ⟨message, hopens, hfield⟩ := h.exists_opens hsuite
    obtain ⟨found, hfound, hvalue⟩ := hfield .chainCertificate
    rw [hc, Option.map_eq_none_iff] at hvalue
    exact .single hopens (hvalue ▸ hfound)
  | nested h hc _ _ ih =>
    obtain ⟨message, hopens, hfield⟩ := h.exists_opens hsuite
    obtain ⟨found, hfound, hvalue⟩ := hfield .chainCertificate
    rw [hc, Option.map_eq_some_iff] at hvalue
    obtain ⟨f, rfl, rfl⟩ := hvalue
    exact .nested hopens hfound ih

theorem Authentic.exists_opens {entities : EntityResolver} {height : UInt64}
    (h : Authentic signed entities height c a) :
    ∃ message, Opens signed entities height c message a.signer a.visible := by
  cases h with
  | single h _ => exact ⟨_, h⟩
  | nested h _ _ => exact ⟨_, h⟩

/-- Whatever the bytes and the resolvers are, what is attested was signed. -/
theorem tamperEvident (hsuite : suite.Unforged signed) (r : Resolvers) (o : AttestOptions) :
    TamperEvident suite r o signed where
  attested := by
    intro c d a h
    obtain ⟨ha, hd⟩ := attest_eq_ok_iff.mp h
    exact ⟨(attestation_eq_ok_iff_trusted.mp ha).authentic hsuite, hd⟩
  refused := by
    intro c hunsigned
    unfold Certificate.attest
    cases hc : c.attestation suite r o with
    | error e => exact ⟨e, rfl⟩
    | ok a =>
      have hauthentic := (attestation_eq_ok_iff_trusted.mp hc).authentic hsuite
      obtain ⟨message, h⟩ := hauthentic.exists_opens
      obtain ⟨keys, hk, hm⟩ := h.signed
      exact absurd hm (hunsigned a.signer keys message h.declared hk h.starts)

end Attestation

/-! A certificate around another one, and a suite that verifies what these two sign. -/

namespace Sample

def notary : EntityId :=
  ⟨.ofNat 16 8⟩

def notarized (fields : FieldList) : Certificate :=
  match fields.sign (.checksum 1 4 4) notary.bytes [9] with
  | .ok c => c
  | .error _ => .ofBytes []

def inner : Certificate :=
  notarized [Tag.word64 ⟨0x0400⟩ 17]

def outer : Certificate :=
  notarized [Tag.certificate .chainCertificate inner, Tag.word64 ⟨0x0400⟩ 18]

def issued : List (Bytes × Bytes) :=
  [inner, outer].filterMap fun c =>
    match c.signedRegion with
    | .ok (some region) => some ([9], region.message)
    | _ => none

def issuing : Suite :=
  let suite : Suite := .checksum 1 4 4
  { suite with
    verify := fun key signature message =>
      decide ((key, message) ∈ issued) && suite.verify key signature message }

def notaries : Resolvers :=
  ⟨fun _ _ => .ok ⟨[], [9]⟩, .none, .none⟩

theorem unforged_issuing : issuing.Unforged {p | p ∈ issued} := by
  intro key signature message hverify
  obtain ⟨hissued, _⟩ := Bool.and_eq_true_iff.mp hverify
  exact of_decide_eq_true hissued

end Sample

namespace Attestation

/-- Trailing bytes do no harm, and a changed byte of the nested message does. -/
theorem tamperEvident_outer :
    (∃ d, (Certificate.ofBytes (Sample.outer.raw ++ [1, 2, 3])).attest Sample.issuing
        Sample.notaries {} = (.ok ⟨Sample.notary, Sample.outer.visible, 1⟩, d) ∧
      Authentic {p | p ∈ Sample.issued} Sample.notaries.entities 0
        (.ofBytes (Sample.outer.raw ++ [1, 2, 3])) ⟨Sample.notary, Sample.outer.visible, 1⟩) ∧
    ∃ e, (Certificate.ofBytes (Sample.outer.raw.set 19 0)).attest Sample.issuing
        Sample.notaries {} = (.error e, .ofBytes (Sample.outer.raw.set 19 0)) := by
  have h := tamperEvident Sample.unforged_issuing Sample.notaries {}
  have hattest : ((Certificate.ofBytes (Sample.outer.raw ++ [1, 2, 3])).attest Sample.issuing
      Sample.notaries {}).1 = .ok ⟨Sample.notary, Sample.outer.visible, 1⟩ := by
    decide +kernel
  refine ⟨⟨_, Prod.ext hattest rfl, (h.attested _ _ _ (Prod.ext hattest rfl)).1⟩, h.refused _ ?_⟩
  intro signer keys message _ hkeys hprefix hissued
  obtain rfl : keys = ⟨[], [9]⟩ := (Except.ok.inj hkeys).symm
  have hnone : ∀ p ∈ Sample.issued, ¬ p.2 <+: Sample.outer.raw.set 19 0 := by decide +kernel
  exact hnone _ hissued hprefix

end Attestation

end SignedLedger
