import Mathlib.Algebra.Order.BigOperators.Group.List
import Mathlib.Algebra.Order.Group.Nat
import SignedLedger.Proofs.Acceptance
import SignedLedger.Proofs.FieldCodec
import SignedLedger.Proofs.HashChain
import SignedLedger.Proofs.TamperEvidence

/-! From a draft to an attestation. A draft writes its own fields before those of the application,
which never have the tags that reading and attesting look for. What is signed therefore reads as it
was drafted, whatever is left out and whatever is nested, and is attested by whoever knows the key
of the signer. -/

namespace SignedLedger

/-- That signing with the private key always makes a signature of the declared size, which the
public key verifies. -/
structure Suite.Pairs (suite : Suite) (publicKey privateKey : Bytes) : Prop where
  ne_nil : publicKey ≠ []
  signs : ∀ message, ∃ signature, suite.sign privateKey message = .ok signature ∧
    signature.length = suite.signatureSize ∧ suite.verify publicKey signature message = true

theorem Identifier.getD_nonNil? {k : Identifier.Kind} (i : Identifier k) :
    i.nonNil?.getD .nil = i := by
  by_cases hi : i = .nil <;> simp [nonNil?, hi]

namespace Attestation

variable {suite : Suite} {r : Resolvers} {o : AttestOptions} {depth size : Nat} {c : Certificate}
variable {fields : FieldList} {signer : EntityId} {a : Attestation}

theorem Stands.deeper (h : Stands suite r o depth c fields signer size) :
    Stands suite r o (depth + 1) c fields signer size := by
  obtain ⟨hsigned, artifact, hartifact, _, hcontract⟩ := h
  exact ⟨hsigned, artifact, hartifact, fun hd => absurd hd (Nat.succ_ne_zero depth), hcontract⟩

/-- A nested certificate is not held to the state of its artifact, and so what is trusted is trusted
one level deeper, as long as there are levels left. -/
theorem Trusted.deeper (h : Trusted suite r o depth c a)
    (hd : depth + a.chainDepth < maxChainDepth) : Trusted suite r o (depth + 1) c a := by
  induction h with
  | single h hc => exact .single h.deeper hc
  | nested h hc _ _ ih =>
    dsimp only at hd
    exact .nested h.deeper hc (by omega) (ih (by omega))

/-- Without contracts, trust depends on the visible bytes alone. -/
theorem Trusted.shown (h : Trusted suite r o depth c a) (ho : o.validateContract = false) :
    Trusted suite r o depth c.shown a := by
  have hshown : ∀ {fields signer size}, Stands suite r o depth c fields signer size →
      Stands suite r o depth c.shown fields signer size := by
    rintro fields signer size ⟨⟨message, signature, hs, hv, hsize⟩, artifact, hartifact, hstate, _⟩
    refine ⟨⟨message, signature, ⟨hs.unsigned, hs.encoded, ?_⟩, hv, hsize⟩, artifact, hartifact,
      hstate, by simp [ho]⟩
    rw [Certificate.visibleBytes_shown]
    exact hs.visible
  cases h with
  | single h hc => exact .single (hshown h) hc
  | nested h hc hd hn => exact .nested (hshown h) hc hd hn

end Attestation

namespace TransactionDraft

/-- That the fields of the application have tags of their own. -/
def Applies (d : TransactionDraft) : Prop :=
  ∀ f ∈ d.fields, f.1.isApplication = true

/-- That every value fits the header of its field, the signature among them. -/
structure Fits (d : TransactionDraft) (suite : Suite) : Prop where
  fields : d.fields.Fits .short
  chain : ∀ c ∈ d.chain, c.visible ≤ HeaderWidth.short.maxValue
  signature : suite.signatureSize ≤ HeaderWidth.short.maxValue

/-- What the layout starts with, before the fields of the application. -/
def reserved (d : TransactionDraft) (suite : Suite) (now : UInt64) : FieldList :=
  layout { d with fields := [] } suite now

def reservedTags : List Tag :=
  [.version, .timestamp, .cryptoSuite, .certificateType, .transactionId, .artifactId,
    .previousTransactionId, .authorId, .chainCertificate]

variable {d : TransactionDraft} {suite : Suite} {now : UInt64} {t : Tag} {f : Tag × Bytes}
variable {signer : EntityId} {signature privateKey publicKey : Bytes} {c : Certificate}

theorem layout_eq : d.layout suite now = d.reserved suite now ++ d.fields := by
  simp [reserved, layout]

theorem layout_ne_nil : d.layout suite now ≠ [] := by
  simp [layout]

theorem mem_reserved (hf : f ∈ d.reserved suite now) :
    f.1 ∈ reservedTags ∧ (f.2.length ≤ 16 ∨ ∃ c ∈ d.chain, f.2 = c.visibleBytes) := by
  simp only [reserved, layout, List.append_nil, List.mem_append, List.mem_cons, List.not_mem_nil,
    or_false, Option.mem_toList, Option.map_eq_some_iff, or_assoc] at hf
  rcases hf with rfl | rfl | rfl | rfl | rfl | rfl | ⟨_, _, rfl⟩ | ⟨_, _, rfl⟩ | ⟨c, hc, rfl⟩
  case inr.inr.inr.inr.inr.inr.inr.inr =>
    exact ⟨by simp [reservedTags, Tag.certificate], .inr ⟨c, hc, rfl⟩⟩
  all_goals
    refine ⟨?_, .inl ?_⟩ <;>
      simp [reservedTags, Tag.word16, Tag.word64, Tag.identifier, CertificateType.field]

theorem reserved_lacks (ht : t ∉ reservedTags) : (d.reserved suite now).Lacks t :=
  fun _ hf htag => ht (htag ▸ (mem_reserved hf).1)

theorem Applies.lacks (h : d.Applies) (ht : t.isApplication = false) : d.fields.Lacks t := by
  intro f hf htag
  rw [← htag, h f hf] at ht
  cases ht

theorem Applies.layout_lacks (h : d.Applies) (ha : t.isApplication = false)
    (ht : t ∉ reservedTags) : (d.layout suite now).Lacks t := by
  rw [layout_eq]
  exact FieldList.lacks_append_iff.mpr ⟨reserved_lacks ht, h.lacks ha⟩

/-! What the draft writes is found before anything of the application. -/

theorem Applies.lookup_layout (h : d.Applies) (ht : t.isApplication = false) :
    (d.layout suite now).lookup t = (d.reserved suite now).lookup t := by
  rw [layout_eq, List.lookup_append, FieldList.lookup_eq_none (h.lacks ht), Option.or_none]

theorem lookup_optional :
    (d.reserved suite now).lookup .previousTransactionId =
      d.previous.nonNil?.map Identifier.bytes ∧
    (d.reserved suite now).lookup .authorId = d.author.map Identifier.bytes ∧
    (d.reserved suite now).lookup .chainCertificate = d.chain.map Certificate.visibleBytes := by
  unfold reserved layout
  generalize d.previous.nonNil? = previous
  cases previous <;> cases d.author <;> cases d.chain <;> exact ⟨rfl, rfl, rfl⟩

theorem Applies.lookup_named (h : d.Applies) (ht : t.isApplication = false) (hs : t ≠ .signerId) :
    ((d.layout suite now).named signer.bytes).lookup t = (d.reserved suite now).lookup t := by
  rw [FieldList.named, FieldList.lookup_append_of_ne hs, h.lookup_layout ht]

theorem Applies.describes (h : d.Applies) (c : Certificate) :
    ((d.layout suite now).named signer.bytes).Describes
      ⟨c, d.type, d.id, d.artifact, d.previous⟩ where
  type := (h.lookup_named (by decide) (by decide)).trans rfl
  id := (h.lookup_named (by decide) (by decide)).trans rfl
  artifact := (h.lookup_named (by decide) (by decide)).trans rfl
  previous := by
    refine ⟨d.previous.nonNil?, ?_, Identifier.getD_nonNil? _⟩
    rw [h.lookup_named (by decide) (by decide), lookup_optional.1]

theorem Fits.layout (h : d.Fits suite) : (d.layout suite now).Fits .short := by
  rw [layout_eq]
  refine FieldList.fits_append_iff.mpr ⟨fun f hf => ?_, h.fields⟩
  rcases (mem_reserved hf).2 with hshort | ⟨c, hc, hvalue⟩
  · exact Nat.le_trans hshort (by decide)
  · rw [hvalue, Certificate.length_visibleBytes]
    exact h.chain c hc

/-! Signing and reading. -/

/-- That `c` is what the draft lays out, under the name and the signature of the signer. -/
structure Sealed (d : TransactionDraft) (suite : Suite) (now : UInt64) (signer : EntityId)
    (signature : Bytes) (c : Certificate) : Prop where
  fits : ((d.layout suite now).sealed signer.bytes signature).Fits .short
  eq : c = (d.layout suite now).signedBy signer signature

def message (d : TransactionDraft) (suite : Suite) (now : UInt64) (signer : EntityId) : Bytes :=
  ((d.layout suite now).named signer.bytes).written .short

theorem sign_eq_ok_iff :
    d.sign suite now signer privateKey = .ok c ↔ ∃ signature,
      suite.sign privateKey (d.message suite now signer) = .ok signature ∧
      signature.length = suite.signatureSize ∧ d.Sealed suite now signer signature c := by
  rw [sign, FieldList.sign_eq_ok_iff]
  constructor
  · rintro ⟨_, _, signature, hs, hsize, hf, hc⟩
    exact ⟨signature, hs, hsize, hf, hc⟩
  · rintro ⟨signature, hs, hsize, hf, hc⟩
    exact ⟨Identifier.length_bytes _, layout_ne_nil, signature, hs, hsize, hf, hc⟩

theorem Fits.sealed (h : d.Fits suite) (hs : signature.length = suite.signatureSize) :
    ((d.layout suite now).sealed signer.bytes signature).Fits .short := by
  rw [FieldList.fits_sealed_iff, FieldList.named, FieldList.fits_append_iff, hs]
  refine ⟨⟨h.layout, ?_⟩, h.signature⟩
  simp only [FieldList.Fits, List.mem_singleton, forall_eq, Identifier.length_bytes]
  decide

namespace Sealed

theorem signs (h : d.Sealed suite now signer signature c) (ha : d.Applies) :
    c.Signs ((d.layout suite now).named signer.bytes) (d.message suite now signer) signature := by
  rw [h.eq]
  exact FieldList.signs_signedBy h.fits (ha.layout_lacks (by decide) (by decide))

theorem raw_eq (h : d.Sealed suite now signer signature c) :
    c.raw = ((d.layout suite now).sealed signer.bytes signature).written .short := by
  rw [h.eq]
  rfl

theorem visible_eq (h : d.Sealed suite now signer signature c) : c.visible = c.raw.length := by
  rw [h.eq]
  rfl

theorem visibleBytes_eq (h : d.Sealed suite now signer signature c) : c.visibleBytes = c.raw := by
  rw [Certificate.visibleBytes, h.visible_eq, List.take_length]

theorem length_raw (h : d.Sealed suite now signer signature c) :
    c.raw.length = Certificate.signedSize (d.message suite now signer) signature := by
  rw [h.raw_eq, FieldList.written_sealed]
  simp [Certificate.signedSize, encodedSize, message]

/-- Every value comes with its header, and so is shorter than the certificate. -/
theorem length_lt_visible (h : d.Sealed suite now signer signature c) (hf : f ∈ d.fields) :
    f.2.length < c.visible := by
  have hm : f ∈ (d.layout suite now).sealed signer.bytes signature := by
    rw [FieldList.sealed, FieldList.named, layout_eq]
    exact List.mem_append_left _ (List.mem_append_left _ (List.mem_append_right _ hf))
  have hle : encodedSize f.2.length ≤
      ((d.layout suite now).sealed signer.bytes signature).encodedSize :=
    List.le_sum_of_mem (List.mem_map_of_mem hm)
  rw [h.eq, FieldList.visible_signedBy]
  exact Nat.lt_of_lt_of_le (Nat.lt_add_of_pos_left (by decide)) hle

/-- The signature is the last thing that is visible. -/
theorem narrow_eq (h : d.Sealed suite now signer signature c) : c.narrow c.raw.length = c := by
  have hv := h.visible_eq
  obtain ⟨raw, visible, hle⟩ := c
  obtain rfl : visible = raw.length := hv
  simp [Certificate.narrow]

end Sealed

/-- That `c` reads as the draft: it is the transaction of the draft, and the fields of the
application are found in order. -/
structure ReadsAs (d : TransactionDraft) (c : Certificate) : Prop where
  parsed : Transaction.parse c = .ok ⟨c, d.type, d.id, d.artifact, d.previous⟩
  fields : ∃ found : List Field, c.fields = found.map .ok ∧
    (found.filter fun f => f.tag.isApplication).map Field.content = d.fields
  fieldsOf : ∀ t : Tag, t.isApplication = true → ∃ found : List Field,
    c.fieldsOf t = .ok found ∧
      found.map Field.value = (d.fields.filter fun f => f.1 = t).map Prod.snd

theorem Applies.filter_sealed (h : d.Applies) (suite : Suite) (now : UInt64) (signer : EntityId)
    (signature : Bytes) :
    ((d.layout suite now).sealed signer.bytes signature).filter (fun f => f.1.isApplication) =
      d.fields := by
  have hreserved : (d.reserved suite now).filter (fun f => f.1.isApplication) = [] := by
    rw [List.filter_eq_nil_iff]
    intro f hf
    exact (by decide : ∀ t ∈ reservedTags, ¬ t.isApplication = true) _ (mem_reserved hf).1
  have hfields : d.fields.filter (fun f => f.1.isApplication) = d.fields :=
    List.filter_eq_self.mpr h
  rw [FieldList.sealed, FieldList.named, layout_eq, List.filter_append, List.filter_append,
    List.filter_append, hreserved, hfields]
  simp [Tag.isApplication, Tag.signerId, Tag.signature]

theorem Sealed.readsAs (h : d.Sealed suite now signer signature c) (ha : d.Applies) :
    d.ReadsAs c where
  parsed := by
    have hparse := (h.signs ha).parse_narrow (x := ⟨c, d.type, d.id, d.artifact, d.previous⟩)
    rw [← h.length_raw, h.narrow_eq] at hparse
    exact hparse.mpr ⟨ha.describes c, rfl⟩
  fields := by
    refine ⟨_, Certificate.fields_of_written h.fits (h.visibleBytes_eq.trans h.raw_eq), ?_⟩
    have hmap := Field.map_content_placed .short 0
      ((d.layout suite now).sealed signer.bytes signature)
    have hfilter := ha.filter_sealed suite now signer signature
    rw [← hmap, List.filter_map] at hfilter
    exact hfilter
  fieldsOf := by
    intro t ht
    refine ⟨_, Certificate.fieldsOf_of_written t h.fits (h.visibleBytes_eq.trans h.raw_eq), ?_⟩
    rw [FieldList.map_value_filter_placed, ← ha.filter_sealed suite now signer signature,
      List.filter_filter]
    congr 1
    refine List.filter_congr fun f _ => ?_
    by_cases hf : f.1 = t <;> simp [hf, ht]

/-! Attesting. -/

/-- That the resolvers bear out the draft: they give the key of the signer, and the transaction that
the draft extends is the latest of its artifact. -/
structure Known (d : TransactionDraft) (r : Resolvers) (height : UInt64) (signer : EntityId)
    (publicKey : Bytes) : Prop where
  keys : ∃ keys, r.entities signer height = .ok keys ∧ keys.signing = publicKey
  latest : ∃ latest, r.artifacts d.artifact = .ok latest ∧ latest.getD .nil = d.previous

/-- That `n` certificates are nested in the draft, one in the other, and that the outermost of them
is attested on its own and leaves room for the draft. -/
def Nests (d : TransactionDraft) (suite : Suite) (r : Resolvers) (o : AttestOptions) (n : Nat) :
    Prop :=
  match d.chain with
  | none => n = 0
  | some chain => ∃ a, chain.attestation suite r o = .ok a ∧ a.chainDepth < maxChainDepth ∧
      n = a.chainDepth + 1

variable {r : Resolvers} {o : AttestOptions} {n : Nat}

theorem Sealed.stands (h : d.Sealed suite now signer signature c) (ha : d.Applies)
    (ho : o.validateContract = false) (hauthor : ∀ a ∈ d.author, a = signer)
    (hk : d.Known r o.height signer publicKey) (hne : publicKey ≠ [])
    (hv : suite.verify publicKey signature (d.message suite now signer) = true) :
    Attestation.Stands suite r o 0 c ((d.layout suite now).named signer.bytes) signer
      c.raw.length := by
  obtain ⟨⟨keys, hkeys, rfl⟩, latest, hlatest, hprevious⟩ := hk
  have hvouched : Attestation.Vouched suite r.entities o.height
      ((d.layout suite now).named signer.bytes) (d.message suite now signer) signature signer := by
    refine ⟨FieldList.lookup_named_signerId signer (ha.layout_lacks (by decide) (by decide)), ?_,
      keys, hkeys, hne, hv⟩
    intro value hvalue
    rw [ha.lookup_named (by decide) (by decide), lookup_optional.2.1] at hvalue
    obtain ⟨a, hm, rfl⟩ := Option.map_eq_some_iff.mp hvalue
    rw [hauthor a hm]
  refine ⟨⟨_, _, h.signs ha, hvouched, h.length_raw⟩, some d.artifact,
    (ha.describes c).artifact, ?_, by simp [ho]⟩
  rintro _ _ ⟨⟩
  refine ⟨d.previous.nonNil?, latest, ?_, hlatest, ?_⟩
  · rw [ha.lookup_named (by decide) (by decide), lookup_optional.1]
  · rw [Identifier.getD_nonNil?, hprevious]

theorem Applies.trusted (ha : d.Applies) (ho : o.validateContract = false)
    (hs : Attestation.Stands suite r o 0 c ((d.layout suite now).named signer.bytes) signer
      c.raw.length) (hn : d.Nests suite r o n) :
    Attestation.Trusted suite r o 0 c ⟨signer, c.raw.length, n⟩ := by
  have hchain : ((d.layout suite now).named signer.bytes).lookup .chainCertificate =
      d.chain.map Certificate.visibleBytes := by
    rw [ha.lookup_named (by decide) (by decide), lookup_optional.2.2]
  unfold Nests at hn
  cases hd : d.chain with
  | none =>
    rw [hd] at hn hchain
    obtain rfl : n = 0 := hn
    exact .single hs hchain
  | some chain =>
    rw [hd] at hn hchain
    obtain ⟨a, hattested, hlt, rfl⟩ := hn
    have htrusted := Attestation.attestation_eq_ok_iff_trusted.mp hattested
    exact .nested hs hchain (by decide) ((htrusted.deeper (by omega)).shown ho)

theorem Sealed.attestation_eq (h : d.Sealed suite now signer signature c) (ha : d.Applies)
    (ho : o.validateContract = false) (hauthor : ∀ a ∈ d.author, a = signer)
    (hk : d.Known r o.height signer publicKey) (hne : publicKey ≠ [])
    (hv : suite.verify publicKey signature (d.message suite now signer) = true)
    (hn : d.Nests suite r o n) : c.attestation suite r o = .ok ⟨signer, c.raw.length, n⟩ :=
  Attestation.attestation_eq_ok_iff_trusted.mpr
    (ha.trusted ho (h.stands ha ho hauthor hk hne hv) hn)

theorem Fits.exists_sealed (hf : d.Fits suite) (hsuite : suite.Pairs publicKey privateKey)
    (now : UInt64) (signer : EntityId) :
    ∃ signature c, d.sign suite now signer privateKey = .ok c ∧
      d.Sealed suite now signer signature c ∧
      suite.verify publicKey signature (d.message suite now signer) = true := by
  obtain ⟨signature, hsign, hsize, hverify⟩ := hsuite.signs (d.message suite now signer)
  have hsealed : d.Sealed suite now signer signature
      ((d.layout suite now).signedBy signer signature) := ⟨hf.sealed hsize, rfl⟩
  exact ⟨signature, _, sign_eq_ok_iff.mpr ⟨signature, hsign, hsize, hsealed⟩, hsealed, hverify⟩

/-- Whatever is drafted is signed, reads as it was drafted, and is attested by whoever knows the key
of its signer and the state of its artifact. -/
theorem sign_agrees (d : TransactionDraft) (suite : Suite) (now : UInt64) (signer : EntityId)
    {publicKey privateKey : Bytes} (hsuite : suite.Pairs publicKey privateKey) (ha : d.Applies)
    (hf : d.Fits suite) :
    ∃ c, d.sign suite now signer privateKey = .ok c ∧ d.ReadsAs c ∧
      ∀ (r : Resolvers) (o : AttestOptions) (n : Nat), o.validateContract = false →
        (∀ author ∈ d.author, author = signer) → d.Known r o.height signer publicKey →
        d.Nests suite r o n → c.attest suite r o = (.ok ⟨signer, c.raw.length, n⟩, c) := by
  obtain ⟨signature, c, hsign, hsealed, hverify⟩ := hf.exists_sealed hsuite now signer
  refine ⟨c, hsign, hsealed.readsAs ha, ?_⟩
  intro r o n ho hauthor hk hn
  have hattested := hsealed.attestation_eq ha ho hauthor hk hsuite.ne_nil hverify hn
  exact Attestation.attest_eq_ok_iff.mpr ⟨hattested, hsealed.narrow_eq.symm⟩

end TransactionDraft

theorem Suite.checksum_pairs {id : UInt16} {size : Nat} {key : Bytes} (h : key ≠ []) :
    (checksum id size size).Pairs key key where
  ne_nil := h
  signs := by
    intro message
    have hsign : (checksum id size size).sign key message =
        .ok ((List.range size).map fun i =>
          (key ++ message).foldl (· + ·) 0 + UInt8.ofNat i) := if_neg h
    exact ⟨_, hsign, by simp [checksum], Suite.checksum_verify hsign⟩

/-! A draft with everything that a draft may have. -/

namespace Sample

def entities : EntityResolver :=
  fun _ _ => .ok ⟨[], [9]⟩

def author : EntityId :=
  ⟨.ofNat 16 8⟩

def signed (id previous : TransactionId) : Certificate :=
  let draft : TransactionDraft := { type := ⟨0x0100⟩, id, artifact, previous }
  match draft.sign signer.suite 0 author [9] with
  | .ok c => c
  | .error _ => .ofBytes []

/-- The artifact of the sample has not been started, and all others have got as far as one
transaction. -/
def drafting : Resolvers :=
  { entities, artifacts := fun a => .ok (if a = artifact then none else some ⟨.ofNat 16 4⟩),
    contracts := .none }

def draft : TransactionDraft :=
  { type := ⟨0x0100⟩
    id := ⟨.ofNat 16 5⟩
    artifact := ⟨.ofNat 16 3⟩
    previous := ⟨.ofNat 16 4⟩
    author := some author
    chain := some (signed ⟨.ofNat 16 6⟩ .nil)
    fields := [(⟨0x0400⟩, [1]), (⟨0x0401⟩, []), (⟨0x0400⟩, [2])] }

theorem applies_draft : draft.Applies := by
  unfold TransactionDraft.Applies
  decide

theorem fits_draft : draft.Fits signer.suite where
  fields := by
    unfold FieldList.Fits
    decide
  chain := by decide +kernel
  signature := by decide

end Sample

namespace TransactionDraft

theorem sign_agrees_draft :
    ∃ c, Sample.draft.sign Sample.signer.suite 0 Sample.author [9] = .ok c ∧
      Sample.draft.ReadsAs c ∧
      c.attest Sample.signer.suite Sample.drafting {} =
        (.ok ⟨Sample.author, c.raw.length, 1⟩, c) := by
  have hpairs : Sample.signer.suite.Pairs [9] [9] := Suite.checksum_pairs (by decide)
  obtain ⟨c, hc, hreads, hattest⟩ :=
    sign_agrees Sample.draft Sample.signer.suite 0 Sample.author hpairs Sample.applies_draft
      Sample.fits_draft
  have hchain : (Sample.signed ⟨.ofNat 16 6⟩ .nil).attestation Sample.signer.suite
      Sample.drafting {} =
        .ok ⟨Sample.author, (Sample.signed ⟨.ofNat 16 6⟩ .nil).visible, 0⟩ := by decide +kernel
  have hknown : Sample.draft.Known Sample.drafting 0 Sample.author [9] :=
    ⟨⟨_, rfl, rfl⟩, _, rfl, by decide⟩
  refine ⟨c, hc, hreads, hattest Sample.drafting {} 1 rfl ?_ hknown ?_⟩
  · rintro _ ⟨⟩
    rfl
  · exact ⟨_, hchain, by decide, rfl⟩

end TransactionDraft

end SignedLedger
