import SignedLedger.Proofs.AttestationChecks
import SignedLedger.Proofs.FieldReading

/-! Trust, told from the fields that a signature covers and not from the checks in their order. A
certificate is trusted where its visible bytes split into signed fields, their signature and anything
else, the signed fields stand up on their own, and the certificate nested in them is trusted. An
attestation succeeds for the trusted certificates and for no others. -/

namespace SignedLedger

namespace FieldList

variable {w : HeaderWidth} {fields more : FieldList} {t u : Tag} {value : Bytes}

theorem map_value_find?_placed (w : HeaderWidth) (fields : FieldList) (t : Tag) (offset : Nat) :
    ((placed w offset fields).find? fun f => f.tag = t).map Field.value = fields.lookup t := by
  induction fields generalizing offset with
  | nil => rfl
  | cons f fields ih =>
    obtain ⟨u, value⟩ := f
    by_cases hu : u = t
    · subst hu
      simp [placed, List.lookup_cons_self]
    · have hbeq : (t == u) = false := by simpa using Ne.symm hu
      simp [placed, hu, List.lookup_cons, hbeq, ih]

theorem lookup_eq_none (h : fields.Lacks t) : fields.lookup t = none :=
  List.lookup_eq_none_iff.mpr fun f hf => by simpa using Ne.symm (h f hf)

theorem lookup_append_of_ne (hu : t ≠ u) : (fields ++ [(u, value)]).lookup t = fields.lookup t := by
  have hbeq : (t == u) = false := by simpa using hu
  simp [List.lookup_append, List.lookup_cons, hbeq]

theorem stop_le_of_mem_placed {offset : Nat} {f : Field} (hf : f ∈ placed w offset fields) :
    f.stop ≤ offset + (written w fields).length := by
  obtain ⟨before, after, rfl, ho, hs⟩ := exists_of_mem_placed hf
  rw [hs, ho, written_append, written_cons, List.length_append, List.length_append,
    Field.length_layout]
  omega

end FieldList

namespace Certificate

variable {c : Certificate} {fields : FieldList} {message signature : Bytes} {t : Tag} {n : Nat}

theorem take_visibleBytes (h : n ≤ c.visible) : c.visibleBytes.take n = c.raw.take n := by
  rw [visibleBytes, List.take_take, Nat.min_eq_left h]

theorem visibleBytes_narrow (c : Certificate) (n : Nat) :
    (c.narrow n).visibleBytes = c.visibleBytes.take n := by
  simp only [visibleBytes, narrow, List.take_take, Nat.min_comm]

/-- That the visible bytes of `c` are those of the fields, which are the message of the signature,
the signature, and anything else. -/
structure Signs (c : Certificate) (fields : FieldList) (message signature : Bytes) : Prop where
  unsigned : fields.Lacks .signature
  encoded : Field.encodeAll fields = .ok message
  visible : ∃ last trailer, Field.encode .short .signature signature = .ok last ∧
    c.visibleBytes = message ++ last ++ trailer

def signedSize (message signature : Bytes) : Nat :=
  message.length + encodedSize signature.length

namespace Signs

theorem message_eq (h : c.Signs fields message signature) : message = fields.written .short :=
  (Field.encodeAll_eq_ok_iff.mp h.encoded).2

theorem fits (h : c.Signs fields message signature) :
    FieldList.Fits .short (fields ++ [(.signature, signature)]) := by
  obtain ⟨last, _, hlast, _⟩ := h.visible
  have hs := (Field.encode_eq_ok_iff.mp hlast).1
  refine FieldList.fits_append_iff.mpr ⟨(Field.encodeAll_eq_ok_iff.mp h.encoded).1, ?_⟩
  simpa [FieldList.Fits] using hs

theorem length_written (h : c.Signs fields message signature) :
    (FieldList.written .short (fields ++ [(.signature, signature)])).length =
      signedSize message signature := by
  simp [signedSize, h.message_eq, encodedSize]

theorem exists_trailer (h : c.Signs fields message signature) : ∃ trailer,
    c.visibleBytes = FieldList.written .short (fields ++ [(.signature, signature)]) ++ trailer := by
  obtain ⟨last, trailer, hlast, hv⟩ := h.visible
  refine ⟨trailer, ?_⟩
  rw [hv, h.message_eq, (Field.encode_eq_ok_iff.mp hlast).2]
  simp

theorem visibleBytes_narrow (h : c.Signs fields message signature) :
    (c.narrow (signedSize message signature)).visibleBytes =
      FieldList.written .short (fields ++ [(.signature, signature)]) := by
  obtain ⟨trailer, hv⟩ := h.exists_trailer
  rw [Certificate.visibleBytes_narrow, hv, List.take_left' h.length_written]

theorem visible_narrow (h : c.Signs fields message signature) :
    (c.narrow (signedSize message signature)).visible = signedSize message signature := by
  rw [← length_visibleBytes, h.visibleBytes_narrow, h.length_written]

theorem field_narrow (h : c.Signs fields message signature) (ht : t ≠ .signature) :
    ∃ found, (c.narrow (signedSize message signature)).field t = .ok found ∧
      found.map Field.value = fields.lookup t :=
  ⟨_, field_of_written t h.fits h.visibleBytes_narrow, by
    rw [FieldList.map_value_find?_placed, FieldList.lookup_append_of_ne ht]⟩

theorem identifier_narrow {k : Identifier.Kind} {i : Option (Identifier k)}
    (h : c.Signs fields message signature) (ht : t ≠ .signature) :
    (c.narrow (signedSize message signature)).identifier t = .ok i ↔
      fields.lookup t = i.map Identifier.bytes := by
  obtain ⟨found, hf, hv⟩ := h.field_narrow ht
  rw [← hv, identifier, hf]
  cases found with
  | none => cases i <;> simp
  | some f => cases i <;> simp [bind_eq_ok_iff, Identifier.ofField_eq_ok_iff]

theorem certificateType_narrow {type : CertificateType} (h : c.Signs fields message signature) :
    (c.narrow (signedSize message signature)).certificateType = .ok (some type) ↔
      fields.lookup .certificateType = some (bigEndian 2 type.number.toNat) := by
  obtain ⟨found, hf, hv⟩ := h.field_narrow (t := .certificateType) (by decide)
  rw [certificateType_eq_some_iff, ← hv, hf]
  cases found <;> simp

theorem field_signature (h : c.Signs fields message signature) :
    c.field .signature = .ok (some ⟨.signature, signature, message.length,
      signedSize message signature⟩) := by
  obtain ⟨trailer, hv⟩ := h.exists_trailer
  rw [field_eq, hv]
  refine Field.findFirstFrom_eq_some_iff.mpr ⟨fields, trailer, h.unsigned, h.fits, rfl, rfl, ?_, ?_⟩
  · rw [h.message_eq, Nat.zero_add]
  · simp [signedSize, encodedSize, Nat.add_assoc]

theorem raw_take (h : c.Signs fields message signature) : c.raw.take message.length = message := by
  obtain ⟨last, trailer, _, hv⟩ := h.visible
  have hle : message.length ≤ c.visible := by
    rw [← length_visibleBytes, hv]
    simp
  rw [← take_visibleBytes hle, hv, List.append_assoc, List.take_left]

/-- A signed field is found in the whole of the visible bytes, and before the signature. -/
theorem field_of_lookup (h : c.Signs fields message signature) {value : Bytes}
    (hl : fields.lookup t = some value) :
    ∃ f, c.field t = .ok (some f) ∧ f.value = value ∧ f.stop ≤ message.length := by
  obtain ⟨last, trailer, _, hv⟩ := h.visible
  obtain ⟨hf, hm⟩ := Field.encodeAll_eq_ok_iff.mp h.encoded
  rw [← FieldList.map_value_find?_placed .short fields t 0, Option.map_eq_some_iff] at hl
  obtain ⟨f, hfound, rfl⟩ := hl
  refine ⟨f, ?_, rfl, ?_⟩
  · rw [field_eq, hv, List.append_assoc, hm, Field.findFirstFrom_written hf, hfound]
  · have hle := FieldList.stop_le_of_mem_placed (List.mem_of_find?_eq_some hfound)
    rwa [Nat.zero_add, ← hm] at hle

theorem lookup_of_field (h : c.Signs fields message signature) {f : Field}
    (hf : c.field t = .ok (some f)) (hs : f.stop ≤ message.length) :
    fields.lookup t = some f.value := by
  obtain ⟨last, trailer, _, hv⟩ := h.visible
  obtain ⟨hfits, hm⟩ := Field.encodeAll_eq_ok_iff.mp h.encoded
  rw [field_eq, hv, List.append_assoc, hm, Field.findFirstFrom_written hfits] at hf
  rw [← FieldList.map_value_find?_placed .short fields t 0]
  cases hfound : (fields.placed .short 0).find? fun f => f.tag = t with
  | some g =>
    rw [hfound] at hf
    rw [Option.map_some, Option.some.inj (Except.ok.inj hf)]
  | none =>
    -- A field of what follows the message does not end in the message.
    rw [hfound] at hf
    have hle := Field.offset_le_of_findFirstFrom hf
    rw [← hm] at hle
    omega

end Signs

theorem exists_signs_of_field {f : Field} (hf : c.field .signature = .ok (some f)) :
    ∃ fields, c.Signs fields (c.raw.take f.offset) f.value ∧
      f.offset = (c.raw.take f.offset).length ∧
      f.stop = signedSize (c.raw.take f.offset) f.value := by
  rw [field_eq] at hf
  obtain ⟨fields, trailer, hl, hfits, hv, _, ho, hs⟩ := Field.findFirstFrom_eq_some_iff.mp hf
  obtain ⟨hfields, hvalue⟩ := FieldList.fits_append_iff.mp hfits
  have hvalue := hvalue.head
  have ho : f.offset = (fields.written .short).length := by simpa using ho
  have hmessage : c.raw.take f.offset = fields.written .short := by
    have hle : f.offset ≤ c.visible := by
      rw [← length_visibleBytes, hv, ho]
      simp
    rw [← take_visibleBytes hle, hv, FieldList.written_append, List.append_assoc,
      List.take_left' ho.symm]
  rw [hmessage, signedSize, ← ho]
  refine ⟨fields, ⟨hl, Field.encodeAll_eq_ok_iff.mpr ⟨hfields, rfl⟩, _, trailer,
    Field.encode_eq_ok_iff.mpr ⟨hvalue, rfl⟩, ?_⟩, rfl, ?_⟩
  · rw [hv]
    simp
  · rw [hs, encodedSize, Nat.add_assoc]

end Certificate

namespace Attestation

/-- That the signed fields name the signer, who is known and whose key verifies the signature, and
no other author. -/
structure Vouched (suite : Suite) (entities : EntityResolver) (height : UInt64) (fields : FieldList)
    (message signature : Bytes) (signer : EntityId) : Prop where
  named : fields.lookup .signerId = some signer.bytes
  author : ∀ value, fields.lookup .authorId = some value → value = signer.bytes
  verified : ∃ keys, entities signer height = .ok keys ∧ keys.signing ≠ [] ∧
    suite.verify keys.signing signature message = true

/-- That the signed fields declare the latest transaction of the artifact as the one before. -/
def Continues (artifacts : ArtifactResolver) (fields : FieldList) (artifact : ArtifactId) : Prop :=
  ∃ previous latest : Option TransactionId,
    fields.lookup .previousTransactionId = previous.map Identifier.bytes ∧
    artifacts artifact = .ok latest ∧ previous.getD .nil = latest.getD .nil

/-- That the signed fields have a type for which there is a contract, which accepts `signed`. -/
def Allowed (contracts : ContractResolver) (fields : FieldList) (artifact : Option ArtifactId)
    (signed : Certificate) : Prop :=
  ∃ type contract, fields.lookup .certificateType = some (bigEndian 2 type.number.toNat) ∧
    contracts type artifact = some contract ∧ contract signed = .ok ()

/-- That `c` stands up on its own: all that is asked of it but for what it nests. Its signature ends
at `size`. -/
structure Stands (suite : Suite) (r : Resolvers) (o : AttestOptions) (depth : Nat) (c : Certificate)
    (fields : FieldList) (signer : EntityId) (size : Nat) : Prop where
  signed : ∃ message signature, c.Signs fields message signature ∧
    Vouched suite r.entities o.height fields message signature signer ∧
    size = Certificate.signedSize message signature
  artifact : ∃ artifact : Option ArtifactId,
    fields.lookup .artifactId = artifact.map Identifier.bytes ∧
    (depth = 0 → ∀ i ∈ artifact, Continues r.artifacts fields i) ∧
    (o.validateContract = true → Allowed r.contracts fields artifact (c.narrow size))

/-- That `c` is trusted at a depth of nesting, and what its attestation tells. -/
inductive Trusted (suite : Suite) (r : Resolvers) (o : AttestOptions) :
    Nat → Certificate → Attestation → Prop
  | single {depth : Nat} {c : Certificate} {fields : FieldList} {signer : EntityId} {size : Nat}
    (h : Stands suite r o depth c fields signer size)
    (hc : fields.lookup .chainCertificate = none) : Trusted suite r o depth c ⟨signer, size, 0⟩
  | nested {depth : Nat} {c : Certificate} {fields : FieldList} {signer : EntityId} {size : Nat}
    {value : Bytes} {a : Attestation} (h : Stands suite r o depth c fields signer size)
    (hc : fields.lookup .chainCertificate = some value) (hd : depth < maxChainDepth)
    (hn : Trusted suite r o (depth + 1) (.ofBytes value) a) :
    Trusted suite r o depth c ⟨signer, size, a.chainDepth + 1⟩

variable {suite : Suite} {r : Resolvers} {o : AttestOptions} {depth levels : Nat} {c : Certificate}
variable {entities : EntityResolver} {height : UInt64} {v : Verified} {a : Attestation}
variable {fields : FieldList} {message signature : Bytes} {signer : EntityId} {size : Nat}

theorem verify_eq_ok_iff_vouched :
    verify suite entities height c = .ok v ↔
      ∃ fields message signature, c.Signs fields message signature ∧
        Vouched suite entities height fields message signature v.signer ∧
        v.signed = c.narrow (Certificate.signedSize message signature) := by
  rw [verify_eq_ok_iff]
  constructor
  · rintro ⟨f, g, k, h⟩
    obtain ⟨fields, hs, ho, hstop⟩ := Certificate.exists_signs_of_field h.signature
    have hsigned := h.signed
    rw [hstop] at hsigned
    refine ⟨fields, _, _, hs, ⟨?_, ?_, k, h.keys, h.signing, h.verified⟩, hsigned⟩
    · rw [← h.signer]
      exact hs.lookup_of_field h.signerField (ho ▸ h.covered)
    · intro value hvalue
      have hauthor := h.author
      rw [hsigned, hs.identifier_narrow (by decide), hs.identifier_narrow (by decide), hvalue]
        at hauthor
      simpa using hauthor
  · rintro ⟨fields, message, signature, hs, hv, hsigned⟩
    obtain ⟨f, hf, hvalue, hstop⟩ := hs.field_of_lookup hv.named
    obtain ⟨k, hk, hne, hverify⟩ := hv.verified
    refine ⟨f, _, k, hf, hvalue, hs.field_signature, hk, hne, hsigned, ?_, hstop, ?_⟩
    · rw [hsigned, hs.identifier_narrow (by decide), hs.identifier_narrow (by decide)]
      cases ha : fields.lookup .authorId with
      | none => exact .inl rfl
      | some value => exact .inr (congrArg some (hv.author value ha))
    · rwa [hs.raw_take]

section

variable (hs : c.Signs fields message signature)

include hs

theorem checkArtifactState_narrow {artifacts : ArtifactResolver} {i : ArtifactId} :
    checkArtifactState artifacts (c.narrow (Certificate.signedSize message signature)) i = .ok () ↔
      Continues artifacts fields i := by
  simp only [checkArtifactState_eq_ok_iff,
    hs.identifier_narrow (t := .previousTransactionId) (by decide)]
  exact Iff.rfl

theorem checkContract_narrow {contracts : ContractResolver} {artifact : Option ArtifactId} :
    checkContract contracts (c.narrow (Certificate.signedSize message signature)) artifact = .ok () ↔
      Allowed contracts fields artifact (c.narrow (Certificate.signedSize message signature)) := by
  simp only [checkContract_eq_ok_iff, hs.certificateType_narrow]
  exact Iff.rfl

theorem chainDepthOf_narrow {attestNested : Certificate → Except AttestationError Nat} {n : Nat} :
    chainDepthOf attestNested (c.narrow (Certificate.signedSize message signature)) = .ok n ↔
      fields.lookup .chainCertificate = none ∧ n = 0 ∨
        ∃ value, fields.lookup .chainCertificate = some value ∧
          attestNested (.ofBytes value) = .ok n := by
  obtain ⟨found, hf, hv⟩ := hs.field_narrow (t := .chainCertificate) (by decide)
  rw [chainDepthOf_eq_ok_iff, hf, ← hv]
  cases found <;> simp [Field.nested]

end

/-- The checks on one certificate ask whether it stands up on its own and whether what attests the
nested certificate succeeds. -/
theorem check_eq_ok_iff_stands {attestNested : Certificate → Except AttestationError Nat} :
    check suite r o depth attestNested c = .ok a ↔
      ∃ fields, Stands suite r o depth c fields a.signer a.visible ∧
        (fields.lookup .chainCertificate = none ∧ a.chainDepth = 0 ∨
          ∃ value, fields.lookup .chainCertificate = some value ∧
            attestNested (.ofBytes value) = .ok a.chainDepth) := by
  rw [check_eq_ok_iff]
  constructor
  · rintro ⟨v, artifact, hv, hn, ha, hstate, hcontract, hsigner, hvisible⟩
    obtain ⟨fields, message, signature, hs, hvouched, hsigned⟩ := verify_eq_ok_iff_vouched.mp hv
    rw [hsigned, hs.visible_narrow] at hvisible
    rw [hsigned, chainDepthOf_narrow hs] at hn
    rw [hsigned, hs.identifier_narrow (by decide)] at ha
    simp only [hsigned, checkArtifactState_narrow hs] at hstate
    rw [hsigned, checkContract_narrow hs, hvisible] at hcontract
    exact ⟨fields, ⟨⟨message, signature, hs, hsigner ▸ hvouched, hvisible.symm⟩, artifact, ha, hstate,
      hcontract⟩, hn⟩
  · rintro ⟨fields, ⟨⟨message, signature, hs, hvouched, hsize⟩, artifact, ha, hstate, hcontract⟩, hn⟩
    refine ⟨⟨a.signer, c.narrow (Certificate.signedSize message signature)⟩, artifact,
      verify_eq_ok_iff_vouched.mpr ⟨fields, message, signature, hs, hvouched, rfl⟩,
      (chainDepthOf_narrow hs).mpr hn, (hs.identifier_narrow (by decide)).mpr ha,
      fun hd i hi => (checkArtifactState_narrow hs).mpr (hstate hd i hi),
      fun ho => (checkContract_narrow hs).mpr (hsize ▸ hcontract ho), rfl, ?_⟩
    rw [hs.visible_narrow, hsize]

theorem attestAt_eq_ok_iff_trusted (hl : levels ≤ maxChainDepth) :
    attestAt suite r o levels c = .ok a ↔ Trusted suite r o (maxChainDepth - levels) c a := by
  induction levels generalizing c a with
  | zero =>
    rw [attestAt, check_eq_ok_iff_stands, Nat.sub_zero]
    obtain ⟨signer, visible, chainDepth⟩ := a
    constructor
    · rintro ⟨fields, hstands, ⟨hc, hn⟩ | ⟨_, _, hn⟩⟩
      · obtain rfl : chainDepth = 0 := hn
        exact .single hstands hc
      · cases hn
    · intro h
      cases h with
      | single hstands hc => exact ⟨_, hstands, .inl ⟨hc, rfl⟩⟩
      | nested _ _ hd => exact absurd hd (Nat.lt_irrefl _)
  | succ levels ih =>
    have hdepth : maxChainDepth - (levels + 1) + 1 = maxChainDepth - levels := by omega
    have hle : levels ≤ maxChainDepth := Nat.le_of_succ_le hl
    rw [attestAt, check_eq_ok_iff_stands]
    obtain ⟨signer, visible, chainDepth⟩ := a
    constructor
    · rintro ⟨fields, hstands, ⟨hc, hn⟩ | ⟨value, hc, hn⟩⟩
      · obtain rfl : chainDepth = 0 := hn
        exact .single hstands hc
      · split at hn
        · rename_i b hb
          obtain rfl : b.chainDepth + 1 = chainDepth := Except.ok.inj hn
          exact .nested hstands hc (by omega) (hdepth ▸ (ih hle).mp hb)
        · cases hn
    · intro h
      cases h with
      | single hstands hc => exact ⟨_, hstands, .inl ⟨hc, rfl⟩⟩
      | nested hstands hc hd hn =>
        refine ⟨_, hstands, .inr ⟨_, hc, ?_⟩⟩
        rw [hdepth] at hn
        rw [(ih hle).mpr hn]

/-- An attestation succeeds exactly for the trusted certificates. -/
theorem attest_eq_ok_iff_trusted :
    (c.attest suite r o).1 = .ok a ↔ Trusted suite r o 0 c a := by
  have h : c.attestation suite r o = .ok a ↔ Trusted suite r o 0 c a := by
    rw [Certificate.attestation, attestAt_eq_ok_iff_trusted (Nat.le_refl maxChainDepth), Nat.sub_self]
  rw [← h, Certificate.attest]
  cases c.attestation suite r o <;> rfl

end Attestation

end SignedLedger
