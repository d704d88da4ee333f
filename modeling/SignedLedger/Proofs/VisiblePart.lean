import SignedLedger.Proofs.FieldSequence
import SignedLedger.Transaction

/-! Look-ups in a certificate read only its visible bytes, so that a certificate narrowed by
attestation and the certificate of the bytes that are left say the same. -/

namespace SignedLedger

@[simp] theorem Field.range_zero (b : Bytes) (stop : Nat) : Field.range b 0 stop = b.take stop := by
  simp [Field.range]

theorem fixedValue_eq_ok_iff {n : Nat} {t : Tag} {value : Bytes} {b : FixedBytes n} :
    fixedValue n t value = .ok b ↔ value = b.toList := by
  rw [← FixedBytes.ofList?_eq_some_iff, fixedValue]
  cases FixedBytes.ofList? n value <;> simp

theorem Identifier.ofField_eq_ok_iff {k : Identifier.Kind} {t : Tag} {value : Bytes}
    {i : Identifier k} : Identifier.ofField t value = .ok i ↔ value = i.bytes := by
  simp only [Identifier.ofField, map_eq_ok_iff, fixedValue_eq_ok_iff]
  constructor
  · rintro ⟨b, rfl, rfl⟩
    rfl
  · rintro rfl
    exact ⟨i.value, rfl, rfl⟩

theorem FixedBytes.ofBigEndian_lt {n : Nat} (b : FixedBytes n) :
    ofBigEndian b.toList < 256 ^ n := by
  have h := SignedLedger.ofBigEndian_lt b.toList
  rwa [b.length_toList] at h

theorem FixedBytes.bigEndian_ofBigEndian {n : Nat} (b : FixedBytes n) :
    bigEndian n (ofBigEndian b.toList) = b.toList := by
  have h := SignedLedger.bigEndian_ofBigEndian b.toList
  rwa [b.length_toList] at h

theorem Field.word16_eq_ok_iff {f : Field} {n : UInt16} :
    f.word16 = .ok n ↔ f.value = bigEndian 2 n.toNat := by
  simp only [word16, fixed, map_eq_ok_iff, fixedValue_eq_ok_iff]
  constructor
  · rintro ⟨b, hv, rfl⟩
    rw [UInt16.toNat_ofNat_of_lt' b.ofBigEndian_lt, b.bigEndian_ofBigEndian, hv]
  · intro hv
    have hn : n.toNat < 256 ^ 2 := n.toNat_lt
    exact ⟨.ofNat 2 n.toNat, hv, by simp [FixedBytes.ofNat, ofBigEndian_bigEndian hn]⟩

namespace Certificate

/-- The visible bytes as a certificate of their own. -/
def shown (c : Certificate) : Certificate :=
  .ofBytes c.visibleBytes

variable (c : Certificate) (t : Tag)

theorem fields_eq : c.fields = Field.scanFrom .short 0 c.visibleBytes := by
  simp [fields, Field.scan, visibleBytes]

theorem field_eq : c.field t = Field.findFirstFrom t 0 c.visibleBytes := by
  simp [field, Field.findFirst, visibleBytes]

theorem fieldsOf_eq : c.fieldsOf t = Field.findAllFrom t 0 c.visibleBytes := by
  simp [fieldsOf, Field.findAll, visibleBytes]

@[simp] theorem visibleBytes_shown : c.shown.visibleBytes = c.visibleBytes :=
  visibleBytes_ofBytes _

@[simp] theorem visible_shown : c.shown.visible = c.visible :=
  c.length_visibleBytes

@[simp] theorem shown_ofBytes (b : Bytes) : (ofBytes b).shown = ofBytes b :=
  congrArg ofBytes (visibleBytes_ofBytes b)

@[simp] theorem shown_shown : c.shown.shown = c.shown :=
  shown_ofBytes _

@[simp] theorem field_shown : c.shown.field t = c.field t := by
  rw [field_eq, field_eq, visibleBytes_shown]

@[simp] theorem require_shown : c.shown.require t = c.require t := by
  simp only [require, field_shown]

@[simp] theorem certificateType_shown : c.shown.certificateType = c.certificateType := by
  simp only [certificateType, field_shown]

@[simp] theorem identifier_shown {k : Identifier.Kind} :
    c.shown.identifier t = (c.identifier t : Except _ (Option (Identifier k))) := by
  simp only [identifier, field_shown]

variable {c}

theorem require_eq_ok_iff {f : Field} : c.require t = .ok f ↔ c.field t = .ok (some f) := by
  unfold require
  rcases c.field t with e | _ | g <;> simp

theorem identifier_eq_some_iff {k : Identifier.Kind} {i : Identifier k} :
    c.identifier t = .ok (some i) ↔ ∃ f, c.field t = .ok (some f) ∧ f.value = i.bytes := by
  unfold identifier
  rcases c.field t with e | _ | f <;> simp [bind_eq_ok_iff, Identifier.ofField_eq_ok_iff]

theorem certificateType_eq_some_iff {type : CertificateType} :
    c.certificateType = .ok (some type) ↔
      ∃ f, c.field .certificateType = .ok (some f) ∧ f.value = bigEndian 2 type.number.toNat := by
  unfold certificateType
  rcases c.field .certificateType with e | _ | f
  · simp
  · simp
  simp only [liftCodec_ok, ok_bind, bind_eq_ok_iff, Field.word16_eq_ok_iff, pure_eq_ok,
    Except.ok.injEq, Option.some.injEq, exists_eq_left']
  constructor
  · rintro ⟨n, hn, rfl⟩
    exact hn
  · intro hn
    exact ⟨type.number, hn, rfl⟩

theorem field_of_written {fields : FieldList} (hf : fields.Fits .short)
    (hc : c.visibleBytes = fields.written .short) :
    c.field t = .ok ((fields.placed .short 0).find? fun f => f.tag = t) := by
  have hw := Field.findFirstFrom_written (t := t) hf 0 []
  rw [List.append_nil] at hw
  rw [field_eq, hc, hw]
  cases (fields.placed .short 0).find? fun f => f.tag = t with
  | none => simp [Field.findFirstFrom]
  | some f => rfl

theorem fieldsOf_of_written {fields : FieldList} (hf : fields.Fits .short)
    (hc : c.visibleBytes = fields.written .short) :
    c.fieldsOf t = .ok ((fields.placed .short 0).filter fun f => f.tag = t) := by
  have hw := Field.findAllFrom_written (t := t) hf 0 []
  rw [List.append_nil] at hw
  rw [fieldsOf_eq, hc, hw]
  simp [Field.findAllFrom]

theorem fields_of_written {fields : FieldList} (hf : fields.Fits .short)
    (hc : c.visibleBytes = fields.written .short) :
    c.fields = (fields.placed .short 0).map .ok := by
  have hw := Field.scanFrom_written hf 0 []
  rw [List.append_nil] at hw
  rw [fields_eq, hc, hw]
  simp [Field.scanFrom]

theorem parse_written {fields : FieldList} (hf : fields.Fits .short) :
    parse (fields.written .short) = .ok (.ofBytes (fields.written .short)) := by
  have hs := fields_of_written hf (visibleBytes_ofBytes _)
  simp [parse, hs, Field.scanError?_map_ok]

/-- Exactly one visible field has the tag `t`, and `value` is its value. -/
def Carries (c : Certificate) (t : Tag) (value : Bytes) : Prop :=
  ∃ f, c.fieldsOf t = .ok [f] ∧ c.field t = .ok (some f) ∧ f.value = value

theorem carries_of_written {fields : FieldList} {value : Bytes} (hf : fields.Fits .short)
    (hc : c.visibleBytes = fields.written .short)
    (ht : fields.filter (fun f => f.1 = t) = [(t, value)]) : c.Carries t value := by
  have hvalues := FieldList.map_value_filter_placed .short fields t 0
  rw [ht] at hvalues
  obtain ⟨f, hfound, hvalue⟩ := List.map_eq_singleton_iff.mp hvalues
  refine ⟨f, ?_, ?_, hvalue⟩
  · rw [fieldsOf_of_written t hf hc, hfound]
  · rw [field_of_written t hf hc, ← List.head?_filter, hfound]
    rfl

end Certificate

namespace Transaction

/-- The transaction as it stands in a block: its certificate is cut down to the visible bytes. -/
def shown (x : Transaction) : Transaction :=
  { x with certificate := x.certificate.shown }

theorem parse_shown (c : Certificate) : parse c.shown = (parse c).map shown := by
  unfold parse
  simp only [Certificate.certificateType_shown, Certificate.require_shown,
    Certificate.identifier_shown]
  rcases c.certificateType with e | _ | type
  · rfl
  · rfl
  rcases c.require .transactionId with e | f
  · rfl
  simp only [ok_bind, structural_ok, pure_eq_ok]
  rcases @Identifier.ofField .transaction .transactionId f.value with e | id
  · rfl
  rcases @Certificate.identifier .artifact c .artifactId with e | _ | artifact
  · rfl
  · rfl
  rcases @Certificate.identifier .transaction c .previousTransactionId with e | previous
  · rfl
  · rfl

theorem parse_eq_ok_iff {c : Certificate} {x : Transaction} :
    parse c = .ok x ↔
      c.certificateType = .ok (some x.type) ∧
      c.identifier .transactionId = .ok (some x.id) ∧
      c.identifier .artifactId = .ok (some x.artifact) ∧
      (∃ p, c.identifier .previousTransactionId = .ok p ∧ p.getD .nil = x.previous) ∧
      x.certificate = c := by
  unfold parse
  rcases c.certificateType with e | _ | type
  · simp
  · simp
  simp only [Certificate.identifier_eq_some_iff .transactionId, ← c.require_eq_ok_iff,
    ← Identifier.ofField_eq_ok_iff (t := .transactionId)]
  rcases c.require .transactionId with e | f
  · simp
  simp only [ok_bind, structural_ok, pure_eq_ok, Except.ok.injEq, exists_eq_left']
  rcases @Identifier.ofField .transaction .transactionId f.value with e | id
  · simp
  rcases @Certificate.identifier .artifact c .artifactId with e | _ | artifact
  · simp
  · simp
  simp only [ok_bind, structural_ok, bind_eq_ok_iff, structural_eq_ok_iff, Except.ok.injEq,
    Option.some.injEq]
  constructor
  · rintro ⟨p, hp, rfl⟩
    exact ⟨rfl, rfl, rfl, ⟨p, hp, rfl⟩, rfl⟩
  · rintro ⟨rfl, rfl, rfl, ⟨p, hp, hprevious⟩, rfl⟩
    exact ⟨p, hp, by rw [hprevious]⟩

theorem certificate_of_parse {c : Certificate} {x : Transaction} (h : parse c = .ok x) :
    x.certificate = c :=
  (parse_eq_ok_iff.mp h).2.2.2.2

theorem parse_certificate {c : Certificate} {x : Transaction} (h : parse c = .ok x) :
    parse x.certificate = .ok x := by
  rw [certificate_of_parse h, h]

theorem parse_certificate_shown {x : Transaction} (h : parse x.certificate = .ok x) :
    parse x.certificate.shown = .ok x.shown := by
  rw [parse_shown, h]
  rfl

end Transaction

end SignedLedger
