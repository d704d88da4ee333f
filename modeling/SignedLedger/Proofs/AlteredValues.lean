import SignedLedger.Proofs.DraftedTransaction
import SignedLedger.Proofs.FieldMachine
import SignedLedger.Proofs.UnsignedTrailer

/-! Altered values. Bytes that differ from those of a certificate in values only read as the same
fields with other values, so that the signer and the signature are where they were. What the
attestation then finds is a bad signature, unless it is the declared author that was altered: the
author is compared with the signer before the signature is looked at. -/

namespace SignedLedger

namespace Field

open FieldList

/-- That byte `i` belongs to the value of `f`. -/
def Holds (w : HeaderWidth) (f : Field) (i : Nat) : Prop :=
  f.offset + w.size ≤ i ∧ i < f.stop

/-- What the field says where its bytes are those of `b`. -/
def reread (w : HeaderWidth) (b : Bytes) (f : Field) : Tag × Bytes :=
  (f.tag, range b (f.offset + w.size) f.stop)

variable {w : HeaderWidth} {b raw : Bytes} {start stop i k : Nat} {fields : FieldList}
variable {f g : Field} {t : Tag} {value : Bytes}

theorem getElem?_range (b : Bytes) (start stop j : Nat) :
    (range b start stop)[j]? = if start + j < stop then b[start + j]? else none := by
  rw [range, List.getElem?_drop, List.getElem?_take]

theorem range_eq_iff :
    range b start stop = range raw start stop ↔ ∀ i, start ≤ i → i < stop → b[i]? = raw[i]? := by
  constructor
  · intro h i hi hs
    have hj := congrArg (·[i - start]?) h
    simp only [getElem?_range, Nat.add_sub_cancel' hi, if_pos hs] at hj
    exact hj
  · intro h
    apply List.ext_getElem?
    intro j
    rw [getElem?_range, getElem?_range]
    split
    · exact h _ (Nat.le_add_right start j) ‹_›
    · rfl

theorem range_append_drop (hs : start ≤ stop) (hb : stop ≤ b.length) :
    range b start stop ++ b.drop stop = b.drop start := by
  have hle : start ≤ (b.take stop).length := by
    rw [List.length_take]
    omega
  rw [range, ← List.drop_append_of_le_length hle, List.take_append_drop]

/-! The ranges of fields that were written side by side. -/

theorem le_offset_of_mem_placed (hf : f ∈ placed w k fields) : k ≤ f.offset := by
  obtain ⟨_, _, _, ho, _⟩ := exists_of_mem_placed hf
  omega

theorem range_placed (before : Bytes) (hraw : raw = before ++ written w fields)
    (hf : f ∈ placed w before.length fields) :
    range raw (f.offset + w.size) f.stop = f.value := by
  obtain ⟨pre, post, hfields, ho, hs⟩ := exists_of_mem_placed hf
  have hsplit : raw = (before ++ written w pre ++
      (f.tag.bytes ++ bigEndian w.lengthBytes f.value.length)) ++ f.value ++ written w post := by
    rw [hraw, hfields]
    simp [layout]
  have hstart : f.offset + w.size = (before ++ written w pre ++
      (f.tag.bytes ++ bigEndian w.lengthBytes f.value.length)).length := by
    rw [ho]
    simp [HeaderWidth.size, Nat.add_assoc]
  rw [hs, hstart, hsplit, range_append]

theorem eq_of_holds (hf : f ∈ placed w k fields) (hg : g ∈ placed w k fields)
    (hi : f.Holds w i) (hj : g.Holds w i) : f = g := by
  induction fields generalizing k with
  | nil => cases hf
  | cons first fields ih =>
    obtain ⟨t, value⟩ := first
    rcases List.mem_cons.mp hf with rfl | hf <;> rcases List.mem_cons.mp hg with rfl | hg
    · rfl
    · have hle := le_offset_of_mem_placed hg
      have hlt := hi.2
      have hge := hj.1
      dsimp only at hlt
      omega
    · have hle := le_offset_of_mem_placed hf
      have hlt := hj.2
      have hge := hi.1
      dsimp only at hlt
      omega
    · exact ih hf hg

/-- Nothing holds a byte of the header of the first field, which is therefore the same in `b`. -/
theorem range_header (before : Bytes) (hraw : raw = before ++ written w ((t, value) :: fields))
    (h : ∀ i, before.length ≤ i → b[i]? ≠ raw[i]? →
      ∃ f ∈ placed w before.length ((t, value) :: fields), f.Holds w i) :
    range b before.length (before.length + w.size) =
      t.bytes ++ bigEndian w.lengthBytes value.length := by
  have hsame : range b before.length (before.length + w.size) =
      range raw before.length (before.length + w.size) := by
    refine range_eq_iff.mpr fun i hi hlt => ?_
    by_contra hne
    obtain ⟨f, hf, hholds⟩ := h i hi hne
    have hle := le_offset_of_mem_placed hf
    have hge := hholds.1
    omega
  have hsplit : raw = before ++ (t.bytes ++ bigEndian w.lengthBytes value.length) ++
      (value ++ written w fields) := by
    rw [hraw, written_cons, layout]
    simp only [List.append_assoc]
  have hsize : w.size = (t.bytes ++ bigEndian w.lengthBytes value.length).length := by
    simp [HeaderWidth.size]
  rw [hsame, hsplit, hsize, range_append]

/-- Bytes that differ from written fields in values only are fields of the same tags and sizes. -/
theorem written_reread (before : Bytes) (hraw : raw = before ++ written w fields)
    (hb : b.length = raw.length)
    (h : ∀ i, before.length ≤ i → b[i]? ≠ raw[i]? →
      ∃ f ∈ placed w before.length fields, f.Holds w i) :
    written w ((placed w before.length fields).map (reread w b)) =
      b.drop before.length := by
  induction fields generalizing before with
  | nil =>
    have hlength : b.length = before.length := by
      rw [hb, hraw]
      simp
    rw [← hlength, List.drop_length]
    rfl
  | cons first fields ih =>
    obtain ⟨t, value⟩ := first
    have hnext : raw = (before ++ layout w t value) ++ written w fields := by
      rw [hraw, written_cons, List.append_assoc]
    have hlength : (before ++ layout w t value).length = before.length + w.size + value.length := by
      simp [Nat.add_assoc]
    have hstop : before.length + w.size + value.length ≤ b.length := by
      rw [hb, hnext, List.length_append, hlength]
      omega
    have hheader := range_header before hraw h
    have hrest := ih (before ++ layout w t value) hnext (by
      intro i hi hne
      rw [hlength] at hi ⊢
      obtain ⟨f, hf, hholds⟩ := h i (by omega) hne
      rcases List.mem_cons.mp hf with rfl | hf
      · have hlt := hholds.2
        dsimp only at hlt
        omega
      · exact ⟨f, hf, hholds⟩)
    rw [hlength] at hrest
    have hvalue : (range b (before.length + w.size)
        (before.length + w.size + value.length)).length = value.length := by
      rw [length_range_eq, Nat.min_eq_left hstop, Nat.add_sub_cancel_left]
    calc written w ((placed w before.length ((t, value) :: fields)).map (reread w b))
        = layout w t (range b (before.length + w.size) (before.length + w.size + value.length)) ++
            b.drop (before.length + w.size + value.length) := by
          rw [placed, List.map_cons, reread, written_cons, hrest]
      _ = range b before.length (before.length + w.size) ++ b.drop (before.length + w.size) := by
          rw [layout, hvalue, ← hheader, List.append_assoc,
            range_append_drop (Nat.le_add_right ..) hstop]
      _ = b.drop before.length :=
          range_append_drop (Nat.le_add_right ..) (Nat.le_trans (Nat.le_add_right ..) hstop)

end Field

namespace FieldList

/-- The fields at the places of these, as they read from `b`. -/
def reread (w : HeaderWidth) (b : Bytes) (fields : FieldList) : FieldList :=
  (fields.placed w 0).map (Field.reread w b)

variable {w : HeaderWidth} {b raw : Bytes} {fields : FieldList} {t : Tag}

theorem lacks_reread (h : fields.Lacks t) : (fields.reread w b).Lacks t := by
  intro g hg
  obtain ⟨f, hf, rfl⟩ := List.mem_map.mp hg
  obtain ⟨before, after, rfl, _⟩ := exists_of_mem_placed hf
  exact h (f.tag, f.value) (by simp)

theorem fits_reread (hf : Fits w fields) (hb : (written w fields).length ≤ b.length) :
    Fits w (fields.reread w b) := by
  intro g hg
  obtain ⟨f, hm, rfl⟩ := List.mem_map.mp hg
  obtain ⟨before, after, rfl, _, hs⟩ := exists_of_mem_placed hm
  have hstop := stop_le_of_mem_placed hm
  have hvalue : f.value.length ≤ w.maxValue := hf (f.tag, f.value) (by simp)
  rw [Field.reread, Field.length_range_eq, Nat.min_eq_left (by omega), hs]
  omega

theorem lookup_reread (w : HeaderWidth) (b : Bytes) (fields : FieldList) (t : Tag) :
    (fields.reread w b).lookup t =
      ((fields.placed w 0).find? fun f => f.tag = t).map fun f => (f.reread w b).2 := by
  unfold reread
  induction fields.placed w 0 with
  | nil => rfl
  | cons f found ih =>
    by_cases hf : f.tag = t
    · subst hf
      simp [Field.reread]
    · have hbeq : (t == f.tag) = false := by simpa using Ne.symm hf
      simp [Field.reread, List.lookup_cons, hbeq, hf, ih]

end FieldList

namespace Certificate

/-- That `b` differs from the bytes of `c`, and in nothing but values of fields before the signature
other than the one that names the signer. -/
structure Altered (c : Certificate) (b : Bytes) : Prop where
  length : b.length = c.raw.length
  ne : b ≠ c.raw
  within : ∀ i, b[i]? ≠ c.raw[i]? → ∃ f region, .ok f ∈ c.fields ∧
    c.signedRegion = .ok (some region) ∧ f.stop ≤ region.signature.offset ∧ f.tag ≠ .signerId ∧
    f.Holds .short i

/-- That `b` differs from the bytes of `c` in the value of a field with tag `t`. -/
def Changes (c : Certificate) (b : Bytes) (t : Tag) : Prop :=
  ∃ f i, .ok f ∈ c.fields ∧ f.tag = t ∧ f.Holds .short i ∧ b[i]? ≠ c.raw[i]?

/-- That the bytes of `c` are the signed fields and the signature, and that all are visible. -/
structure SignsExactly (c : Certificate) (fields : FieldList) (message signature : Bytes) : Prop
    extends c.Signs fields message signature where
  raw : c.raw = FieldList.written .short (fields ++ [(.signature, signature)])
  all : c.visible = c.raw.length

namespace SignsExactly

variable {c : Certificate} {fields : FieldList} {message signature b : Bytes} {f : Field} {i : Nat}

theorem placed_eq (h : c.SignsExactly fields message signature) :
    FieldList.placed .short 0 (fields ++ [(.signature, signature)]) =
      fields.placed .short 0 ++
        [⟨.signature, signature, message.length, signedSize message signature⟩] := by
  rw [FieldList.placed_append, h.message_eq]
  simp [FieldList.placed, signedSize, encodedSize, Nat.add_assoc]

theorem fields_eq_placed (h : c.SignsExactly fields message signature) :
    c.fields = (FieldList.placed .short 0 (fields ++ [(.signature, signature)])).map .ok := by
  refine fields_of_written h.fits ?_
  rw [visibleBytes, h.all, List.take_length, h.raw]

theorem signedRegion_eq (h : c.SignsExactly fields message signature) :
    c.signedRegion = .ok (some ⟨message, ⟨.signature, signature, message.length,
      signedSize message signature⟩⟩) :=
  Attestation.signedRegion_eq_some_iff.mpr ⟨h.field_signature, h.raw_take.symm⟩

theorem ok_mem_fields_iff (h : c.SignsExactly fields message signature) :
    .ok f ∈ c.fields ↔ f ∈ fields.placed .short 0 ∨
      f = ⟨.signature, signature, message.length, signedSize message signature⟩ := by
  rw [h.fields_eq_placed, h.placed_eq]
  simp

theorem exists_holds (h : c.SignsExactly fields message signature) (hb : c.Altered b)
    (hi : b[i]? ≠ c.raw[i]?) :
    ∃ f ∈ fields.placed .short 0, f.tag ≠ .signerId ∧ f.Holds .short i := by
  obtain ⟨f, region, hf, hregion, hstop, htag, hholds⟩ := hb.within i hi
  obtain rfl := Option.some.inj (Except.ok.inj (h.signedRegion_eq.symm.trans hregion))
  rcases h.ok_mem_fields_iff.mp hf with hf | rfl
  · exact ⟨f, hf, htag, hholds⟩
  · -- The field of the signature does not end before it starts.
    have hle := hholds.1
    have hlt := hholds.2
    dsimp only at hstop hle hlt
    omega

theorem reread_eq_iff (h : c.SignsExactly fields message signature) (hf : .ok f ∈ c.fields) :
    (f.reread .short b).2 = f.value ↔ ∀ i, f.Holds .short i → b[i]? = c.raw[i]? := by
  have hplaced : f ∈ FieldList.placed .short 0 (fields ++ [(.signature, signature)]) := by
    rw [h.placed_eq]
    simpa using h.ok_mem_fields_iff.mp hf
  have hvalue : Field.range c.raw (f.offset + HeaderWidth.short.size) f.stop = f.value :=
    Field.range_placed [] h.raw hplaced
  rw [Field.reread, ← hvalue, Field.range_eq_iff]
  exact forall_congr' fun i => and_imp.symm

/-- The altered bytes are signed fields with other values, and the same signature. -/
theorem altered (h : c.SignsExactly fields message signature) (hb : c.Altered b) :
    (ofBytes b).SignsExactly (fields.reread .short b) ((fields.reread .short b).written .short)
      signature := by
  let last : Field := ⟨.signature, signature, message.length, signedSize message signature⟩
  have hlast : (last.reread .short b).2 = signature := by
    refine (h.reread_eq_iff (h.ok_mem_fields_iff.mpr (.inr rfl))).mpr fun i hi => ?_
    by_contra hne
    obtain ⟨f, hf, _, hholds⟩ := h.exists_holds hb hne
    have hstop := FieldList.stop_le_of_mem_placed hf
    have hle := hi.1
    have hlt := hholds.2
    dsimp only at hle
    rw [← h.message_eq] at hstop
    omega
  have hreread : FieldList.reread .short b (fields ++ [(.signature, signature)]) =
      fields.reread .short b ++ [(.signature, signature)] := by
    rw [FieldList.reread, h.placed_eq, List.map_append, List.map_singleton, FieldList.reread,
      show last.reread .short b = (.signature, signature) from Prod.ext rfl hlast]
  have hwritten : FieldList.written .short (fields.reread .short b ++ [(.signature, signature)]) =
      b := by
    rw [← hreread, FieldList.reread]
    refine Field.written_reread [] h.raw hb.length fun i _ hi => ?_
    obtain ⟨f, hf, _, hholds⟩ := h.exists_holds hb hi
    exact ⟨f, h.placed_eq ▸ List.mem_append_left _ hf, hholds⟩
  have hfits : FieldList.Fits .short (fields.reread .short b ++ [(.signature, signature)]) := by
    rw [← hreread]
    exact FieldList.fits_reread h.fits (by rw [hb.length, h.raw])
  obtain ⟨hmore, hsignature⟩ := FieldList.fits_append_iff.mp hfits
  refine ⟨⟨FieldList.lacks_reread h.unsigned, Field.encodeAll_eq_ok_iff.mpr ⟨hmore, rfl⟩, _, [],
    Field.encode_eq_ok_iff.mpr ⟨hsignature.head, rfl⟩, ?_⟩, hwritten.symm, rfl⟩
  rw [visibleBytes_ofBytes, List.append_nil]
  nth_rewrite 1 [← hwritten]
  simp

theorem message_ne (h : c.SignsExactly fields message signature) (hb : c.Altered b) :
    (fields.reread .short b).written .short ≠ message := by
  intro he
  apply hb.ne
  have hraw : b = _ := (h.altered hb).raw
  rw [hraw, h.raw, FieldList.written_append, FieldList.written_append, he, h.message_eq]

theorem lookup_signerId (h : c.SignsExactly fields message signature) (hb : c.Altered b)
    {value : Bytes} (hn : fields.lookup .signerId = some value) :
    (fields.reread .short b).lookup .signerId = some value := by
  rw [← FieldList.map_value_find?_placed .short fields _ 0, Option.map_eq_some_iff] at hn
  obtain ⟨f, hf, rfl⟩ := hn
  have hm := List.mem_of_find?_eq_some hf
  have htag : f.tag = .signerId := by simpa using List.find?_some hf
  rw [FieldList.lookup_reread, hf, Option.map_some]
  refine congrArg some ((h.reread_eq_iff (h.ok_mem_fields_iff.mpr (.inl hm))).mpr fun i hi => ?_)
  by_contra hne
  obtain ⟨g, hg, hgtag, hholds⟩ := h.exists_holds hb hne
  exact hgtag (Field.eq_of_holds hg hm hholds hi ▸ htag)

end SignsExactly

end Certificate

namespace Attestation

variable {suite : Suite} {r : Resolvers} {o : AttestOptions} {c : Certificate}
variable {entities : EntityResolver} {height : UInt64} {fields : FieldList}
variable {message signature : Bytes} {signer : EntityId} {author : Option EntityId}
variable {keys : EntityKeys} {e : AttestationError}

/-- What verifying makes of a signature whose signer is known: another author is refused before the
signature is looked at. -/
theorem verify_of_signs (suite : Suite) (hs : c.Signs fields message signature)
    (hn : fields.lookup .signerId = some signer.bytes)
    (ha : fields.lookup .authorId = author.map Identifier.bytes)
    (hk : entities signer height = .ok keys) (hne : keys.signing ≠ []) :
    verify suite entities height c =
      match author.filter fun a => a ≠ signer with
      | some declared => .error (.authorMismatch declared signer)
      | none =>
        if suite.verify keys.signing signature message then
          .ok ⟨signer, c.narrow (Certificate.signedSize message signature)⟩
        else .error .signatureMismatch := by
  obtain ⟨f, hf, hvalue, hstop⟩ := hs.field_of_lookup hn
  have hregion : c.signedRegion = .ok (some ⟨message, ⟨.signature, signature, message.length,
      Certificate.signedSize message signature⟩⟩) :=
    signedRegion_eq_some_iff.mpr ⟨hs.field_signature, hs.raw_take.symm⟩
  have hauthor := (hs.identifier_narrow (t := .authorId) (by decide)).mpr ha
  have hsigner := (Identifier.ofField_eq_ok_iff (t := .signerId)).mpr hvalue
  have hcovered : ¬ message.length < f.stop := Nat.not_lt.mpr hstop
  unfold verify
  simp only [hf, hsigner, hregion, hk, hauthor, liftCodec_ok, structural_ok, mapError_ok, ok_bind,
    if_neg hne, decide_eq_false hcovered, Bool.false_or]
  cases author with
  | none => cases suite.verify keys.signing signature message <;> rfl
  | some declared =>
    by_cases hd : declared = signer
    · subst hd
      cases suite.verify keys.signing signature message <;> simp [Option.filter]
    · simp [Option.filter, hd]

theorem attest_of_verify_eq_error (h : verify suite r.entities o.height c = .error e) :
    c.attest suite r o = (.error e, c) := by
  have hcheck : c.attestation suite r o = .error e := by
    rw [Certificate.attestation]
    change check suite r o 0 _ c = _
    rw [check_eq_judge, h]
    rfl
  rw [Certificate.attest, hcheck]

/-- That `b`, which was made of the certificate `c` of `signer`, is refused and stays as it is: for
its signature, or for the author that it declares where this was altered. -/
structure Refuses (suite : Suite) (r : Resolvers) (o : AttestOptions) (signer : EntityId)
    (c : Certificate) (b : Bytes) : Prop where
  signature : ¬ c.Changes b .authorId →
    (Certificate.ofBytes b).attest suite r o = (.error .signatureMismatch, .ofBytes b)
  author : c.Changes b .authorId → ∃ declared, declared ≠ signer ∧
    (Certificate.ofBytes b).identifier .authorId = .ok (some declared) ∧
    (Certificate.ofBytes b).attest suite r o =
      (.error (.authorMismatch declared signer), .ofBytes b)

end Attestation

namespace TransactionDraft

variable {d : TransactionDraft} {suite : Suite} {now : UInt64} {signer : EntityId} {f : Field}
variable {signature privateKey b : Bytes} {c : Certificate} {r : Resolvers} {o : AttestOptions}

theorem Sealed.signsExactly (h : d.Sealed suite now signer signature c) (ha : d.Applies) :
    c.SignsExactly ((d.layout suite now).named signer.bytes) (d.message suite now signer)
      signature where
  toSigns := h.signs ha
  raw := h.raw_eq
  all := h.visible_eq

theorem Applies.filter_author (ha : d.Applies) :
    ((d.layout suite now).named signer.bytes).filter (fun f => f.1 = .authorId) =
      (d.author.map Tag.authorId.identifier).toList := by
  have hfields : d.fields.filter (fun f => f.1 = .authorId) = [] := by
    rw [List.filter_eq_nil_iff]
    intro f hf
    simpa using ha.lacks (t := .authorId) (by decide) f hf
  have hreserved : (d.reserved suite now).filter (fun f => f.1 = .authorId) =
      (d.author.map Tag.authorId.identifier).toList := by
    unfold reserved layout
    generalize d.previous.nonNil? = previous
    cases previous <;> cases d.author <;> cases d.chain <;> rfl
  rw [FieldList.named, layout_eq, List.filter_append, List.filter_append, hreserved, hfields]
  simp [Tag.signerId, Tag.authorId]

/-- A draft declares one author at most. -/
theorem Applies.find?_author (ha : d.Applies)
    (hf : f ∈ ((d.layout suite now).named signer.bytes).placed .short 0) (ht : f.tag = .authorId) :
    (((d.layout suite now).named signer.bytes).placed .short 0).find?
      (fun f => f.tag = .authorId) = some f := by
  have hvalues := FieldList.map_value_filter_placed .short
    ((d.layout suite now).named signer.bytes) .authorId 0
  have hm : f ∈ (((d.layout suite now).named signer.bytes).placed .short 0).filter
      (fun f => f.tag = .authorId) := List.mem_filter.mpr ⟨hf, decide_eq_true ht⟩
  rw [ha.filter_author] at hvalues
  rw [← List.head?_filter]
  generalize (((d.layout suite now).named signer.bytes).placed .short 0).filter
    (fun f => f.tag = .authorId) = found at hvalues hm
  have hlength := congrArg List.length hvalues
  cases hd : d.author with
  | none =>
    rw [hd] at hlength
    obtain rfl : found = [] := by simpa using hlength
    cases hm
  | some author =>
    rw [hd] at hlength
    obtain ⟨g, rfl⟩ : ∃ g, found = [g] := by simpa [List.length_eq_one_iff] using hlength
    rw [List.mem_singleton.mp hm]
    rfl

theorem Sealed.changes_author_iff (h : d.Sealed suite now signer signature c) (ha : d.Applies) :
    c.Changes b .authorId ↔ ∃ f,
      (((d.layout suite now).named signer.bytes).placed .short 0).find?
        (fun f => f.tag = .authorId) = some f ∧ (f.reread .short b).2 ≠ f.value := by
  have hs := h.signsExactly ha
  constructor
  · rintro ⟨f, i, hf, ht, hholds, hne⟩
    rcases hs.ok_mem_fields_iff.mp hf with hm | rfl
    · exact ⟨f, ha.find?_author hm ht, fun hsame => hne ((hs.reread_eq_iff hf).mp hsame i hholds)⟩
    · cases ht
  · rintro ⟨f, hf, hne⟩
    have hm : .ok f ∈ c.fields :=
      hs.ok_mem_fields_iff.mpr (.inl (List.mem_of_find?_eq_some hf))
    have hi := mt (hs.reread_eq_iff hm).mpr hne
    push Not at hi
    obtain ⟨i, hholds, hi⟩ := hi
    exact ⟨f, i, hm, by simpa using List.find?_some hf, hholds, hi⟩

theorem Sealed.exists_author (h : d.Sealed suite now signer signature c) (ha : d.Applies)
    (hb : c.Altered b) (hauthor : ∀ a ∈ d.author, a = signer) :
    ∃ author : Option EntityId,
      (((d.layout suite now).named signer.bytes).reread .short b).lookup .authorId =
        author.map Identifier.bytes ∧
      (¬ c.Changes b .authorId → author.filter (fun a => a ≠ signer) = none) ∧
      (c.Changes b .authorId → ∃ declared, declared ≠ signer ∧ author = some declared) := by
  rw [h.changes_author_iff ha, FieldList.lookup_reread]
  cases hf : (((d.layout suite now).named signer.bytes).placed .short 0).find?
      (fun f => f.tag = .authorId) with
  | none => exact ⟨none, rfl, fun _ => rfl, by simp⟩
  | some f =>
    have hvalue : f.value = signer.bytes := by
      have hlookup := FieldList.map_value_find?_placed .short
        ((d.layout suite now).named signer.bytes) .authorId 0
      rw [hf, ha.lookup_named (by decide) (by decide), lookup_optional.2.1] at hlookup
      obtain ⟨a, hm, hbytes⟩ := Option.map_eq_some_iff.mp hlookup.symm
      rw [← hbytes, hauthor a hm]
    have hlength : (f.reread .short b).2.length = 16 := by
      have hm := List.mem_of_find?_eq_some hf
      obtain ⟨_, _, _, _, hstop⟩ := FieldList.exists_of_mem_placed hm
      have hle : f.stop ≤ b.length := by
        refine Nat.le_trans (FieldList.stop_le_of_mem_placed hm) ?_
        rw [hb.length, (h.signsExactly ha).raw, FieldList.written_append, List.length_append]
        omega
      rw [Field.reread, Field.length_range_eq, Nat.min_eq_left hle, hstop, Nat.add_sub_cancel_left, hvalue,
        Identifier.length_bytes]
    obtain ⟨declared, hdeclared⟩ := Identifier.exists_bytes_eq .entity hlength
    have hsame : (f.reread .short b).2 = f.value ↔ declared = signer := by
      rw [hdeclared, hvalue, Identifier.bytes_inj]
    refine ⟨some declared, congrArg some hdeclared, ?_, ?_⟩
    · intro hunchanged
      obtain rfl : declared = signer :=
        hsame.mp (by_contra fun hne => hunchanged ⟨f, rfl, hne⟩)
      simp [Option.filter]
    · rintro ⟨g, hg, hne⟩
      obtain rfl := Option.some.inj hg
      exact ⟨declared, mt hsame.mpr hne, rfl⟩

/-- Whoever knows the signer refuses every alteration of values, and blames the signature unless the
declared author was altered. -/
theorem sign_refuses (h : d.sign suite now signer privateKey = .ok c) (ha : d.Applies)
    (hauthor : ∀ a ∈ d.author, a = signer) {keys : EntityKeys}
    (hk : r.entities signer o.height = .ok keys) (hne : keys.signing ≠ []) {region : SignedRegion}
    (hregion : c.signedRegion = .ok (some region))
    (hsuite : ∀ message, suite.verify keys.signing region.signature.value message = true →
      message = region.message) (hb : c.Altered b) :
    Attestation.Refuses suite r o signer c b := by
  obtain ⟨signature, _, _, hsealed⟩ := sign_eq_ok_iff.mp h
  have hs := hsealed.signsExactly ha
  obtain rfl := Option.some.inj (Except.ok.inj (hs.signedRegion_eq.symm.trans hregion))
  have hunverified : suite.verify keys.signing signature
      ((((d.layout suite now).named signer.bytes).reread .short b).written .short) = false := by
    rw [Bool.eq_false_iff]
    exact fun hv => hs.message_ne hb (hsuite _ hv)
  have hnamed := hs.lookup_signerId hb
    (FieldList.lookup_named_signerId signer (ha.layout_lacks (by decide) (by decide)))
  obtain ⟨author, hlookup, hkept, hchanged⟩ := hsealed.exists_author ha hb hauthor
  have hverify := Attestation.verify_of_signs suite (hs.altered hb).toSigns hnamed hlookup hk hne
  constructor
  · intro hc
    rw [hkept hc, hunverified] at hverify
    exact Attestation.attest_of_verify_eq_error hverify
  · intro hc
    obtain ⟨declared, hd, rfl⟩ := hchanged hc
    obtain ⟨g, hg, hvalue, _⟩ := (hs.altered hb).toSigns.field_of_lookup hlookup
    refine ⟨declared, hd, (Certificate.identifier_eq_some_iff _).mpr ⟨g, hg, hvalue⟩, ?_⟩
    refine Attestation.attest_of_verify_eq_error (hverify.trans ?_)
    simp [Option.filter, hd]

end TransactionDraft

/-! A suite that signs by copying the message, so that a signature fits no other message. -/

theorem Certificate.altered_set {c : Certificate} {f : Field} {region : SignedRegion} {i : Nat}
    {x : UInt8} (hf : .ok f ∈ c.fields) (hr : c.signedRegion = .ok (some region))
    (hstop : f.stop ≤ region.signature.offset) (ht : f.tag ≠ .signerId) (hi : f.Holds .short i)
    (hx : (c.raw.set i x)[i]? ≠ c.raw[i]?) : c.Altered (c.raw.set i x) where
  length := List.length_set
  ne := fun he => hx (by rw [he])
  within := by
    intro j hj
    obtain rfl : i = j := by_contra fun hne => hj (List.getElem?_set_ne hne)
    exact ⟨f, region, hf, hr, hstop, ht, hi⟩

namespace Sample

def copying : Suite :=
  { Suite.standard with
    signatureSize := 288
    sign := fun _ message => .ok message
    verify := fun _ signature message => signature == message }

def copied : Certificate :=
  match draft.sign copying 0 author [9] with
  | .ok c => c
  | .error _ => .ofBytes []

def copiedRegion : SignedRegion :=
  ⟨copied.raw.take 288, ⟨.signature, copied.raw.take 288, 288, 582⟩⟩

theorem signedRegion_copied : copied.signedRegion = .ok (some copiedRegion) := by
  decide +kernel

theorem verify_copying (key message : Bytes)
    (h : copying.verify key copiedRegion.signature.value message = true) :
    message = copiedRegion.message :=
  (eq_of_beq h).symm

/-- The first byte of the artifact is another one. -/
def reassigned : Bytes :=
  copied.raw.set 66 1

/-- The first byte of the author is another one. -/
def reauthored : Bytes :=
  copied.raw.set 110 1

theorem altered_reassigned : copied.Altered reassigned :=
  Certificate.altered_set (f := ⟨.artifactId, draft.artifact.bytes, 60, 82⟩) (by decide +kernel)
    signedRegion_copied (by decide) (by decide) ⟨by decide, by decide⟩ (by decide +kernel)

theorem altered_reauthored : copied.Altered reauthored :=
  Certificate.altered_set (f := ⟨.authorId, author.bytes, 104, 126⟩) (by decide +kernel)
    signedRegion_copied (by decide) (by decide) ⟨by decide, by decide⟩ (by decide +kernel)

end Sample

namespace TransactionDraft

theorem sign_refuses_reassigned :
    Sample.draft.sign Sample.copying 0 Sample.author [9] = .ok Sample.copied ∧
    Sample.copied.Altered Sample.reassigned ∧
    Attestation.Refuses Sample.copying Sample.drafting {} Sample.author Sample.copied
      Sample.reassigned ∧
    ((Certificate.ofBytes Sample.reassigned).attest Sample.copying Sample.drafting {}).1 =
      .error .signatureMismatch := by
  have hsign : Sample.draft.sign Sample.copying 0 Sample.author [9] = .ok Sample.copied := by
    decide +kernel
  have hkeys : Sample.drafting.entities Sample.author 0 = .ok ⟨[], [9]⟩ := rfl
  refine ⟨hsign, Sample.altered_reassigned, ?_, by decide +kernel⟩
  exact sign_refuses hsign Sample.applies_draft (by decide) hkeys (by decide)
    Sample.signedRegion_copied (Sample.verify_copying _) Sample.altered_reassigned

/-- Not every alteration shows as a bad signature. -/
theorem not_signatureMismatch_reauthored :
    ¬ ∀ (d : TransactionDraft) (suite : Suite) (now : UInt64) (signer : EntityId)
      (privateKey : Bytes) (c : Certificate) (r : Resolvers) (o : AttestOptions)
      (keys : EntityKeys) (region : SignedRegion) (b : Bytes),
      d.sign suite now signer privateKey = .ok c → d.Applies → (∀ a ∈ d.author, a = signer) →
      r.entities signer o.height = .ok keys → keys.signing ≠ [] →
      c.signedRegion = .ok (some region) →
      (∀ message, suite.verify keys.signing region.signature.value message = true →
        message = region.message) → c.Altered b →
      (Certificate.ofBytes b).attest suite r o = (.error .signatureMismatch, .ofBytes b) := by
  intro h
  have hmismatch := h Sample.draft Sample.copying 0 Sample.author [9] Sample.copied Sample.drafting
    {} ⟨[], [9]⟩ Sample.copiedRegion Sample.reauthored (by decide +kernel) Sample.applies_draft
    (by decide) rfl (by decide) Sample.signedRegion_copied (Sample.verify_copying _)
    Sample.altered_reauthored
  have hauthor : ((Certificate.ofBytes Sample.reauthored).attest Sample.copying
      Sample.drafting {}).1 =
        .error (.authorMismatch ⟨.ofNat 16 (2 ^ 120 + 8)⟩ Sample.author) := by decide +kernel
  rw [hmismatch] at hauthor
  cases hauthor

end TransactionDraft

end SignedLedger
