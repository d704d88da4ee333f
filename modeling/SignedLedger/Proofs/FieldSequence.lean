import SignedLedger.Certificate.Builder
import SignedLedger.Proofs.Outcome

/-! Sequences of fields as they are written and as they are read. Reading a sequence that was
written finds its fields at their places, whatever bytes follow it, and a search finds the first
field of the sequence with the tag it looks for. -/

namespace SignedLedger

namespace FieldList

/-- Every value has a length that fits the header. -/
def Fits (w : HeaderWidth) (fields : FieldList) : Prop :=
  ∀ f ∈ fields, f.2.length ≤ w.maxValue

def Lacks (fields : FieldList) (t : Tag) : Prop :=
  ∀ f ∈ fields, f.1 ≠ t

def written (w : HeaderWidth) (fields : FieldList) : Bytes :=
  fields.flatMap fun f => Field.layout w f.1 f.2

/-- The fields as they are read from `offset` on. -/
def placed (w : HeaderWidth) (offset : Nat) : FieldList → List Field
  | [] => []
  | (t, value) :: rest =>
    let stop := offset + w.size + value.length
    ⟨t, value, offset, stop⟩ :: placed w stop rest

variable {w : HeaderWidth} {fields more : FieldList} {t : Tag} {value : Bytes}

@[simp] theorem written_nil : written w [] = [] := rfl

@[simp] theorem written_cons :
    written w ((t, value) :: fields) = Field.layout w t value ++ written w fields := rfl

@[simp] theorem written_append : written w (fields ++ more) = written w fields ++ written w more :=
  List.flatMap_append

theorem Fits.head (h : Fits w ((t, value) :: fields)) : value.length ≤ w.maxValue :=
  h (t, value) List.mem_cons_self

theorem Fits.tail (h : Fits w ((t, value) :: fields)) : Fits w fields :=
  fun f hf => h f (List.mem_cons_of_mem _ hf)

theorem fits_append_iff : Fits w (fields ++ more) ↔ Fits w fields ∧ Fits w more :=
  List.forall_mem_append

theorem lacks_append_iff : (fields ++ more).Lacks t ↔ fields.Lacks t ∧ more.Lacks t :=
  List.forall_mem_append

theorem length_written (fields : FieldList) :
    (written .short fields).length = encodedSize fields := by
  induction fields with
  | nil => rfl
  | cons f fields ih =>
    obtain ⟨t, value⟩ := f
    simp only [written_cons, List.length_append, Field.length_layout, ih]
    rfl

theorem placed_append (offset : Nat) :
    placed w offset (fields ++ more) =
      placed w offset fields ++ placed w (offset + (written w fields).length) more := by
  induction fields generalizing offset with
  | nil => rfl
  | cons f fields ih =>
    obtain ⟨t, value⟩ := f
    simp only [List.cons_append, placed, ih, written_cons, List.length_append, Field.length_layout,
      Nat.add_assoc]

theorem find?_placed_eq_none (offset : Nat) (h : fields.Lacks t) :
    (placed w offset fields).find? (fun f => f.tag = t) = none := by
  induction fields generalizing offset with
  | nil => rfl
  | cons f fields ih =>
    have hf : f.1 ≠ t := h f List.mem_cons_self
    simp [placed, hf, ih _ fun g hg => h g (List.mem_cons_of_mem f hg)]

/-- The first field with a tag is found where the fields before it end. -/
theorem find?_placed (offset : Nat) (h : fields.Lacks t) :
    (placed w offset (fields ++ (t, value) :: more)).find? (fun f => f.tag = t) =
      some ⟨t, value, offset + (written w fields).length,
        offset + (written w fields).length + w.size + value.length⟩ := by
  rw [placed_append, List.find?_append, find?_placed_eq_none offset h]
  simp [placed]

/-- A field is read where the fields before it end. -/
theorem exists_of_mem_placed {offset : Nat} {f : Field} (hf : f ∈ placed w offset fields) :
    ∃ before after, fields = before ++ (f.tag, f.value) :: after ∧
      f.offset = offset + (written w before).length ∧
      f.stop = f.offset + w.size + f.value.length := by
  induction fields generalizing offset with
  | nil => cases hf
  | cons g fields ih =>
    obtain ⟨t, value⟩ := g
    rcases List.mem_cons.mp hf with rfl | hf
    · exact ⟨[], fields, rfl, rfl, rfl⟩
    · obtain ⟨before, after, rfl, ho, hs⟩ := ih hf
      refine ⟨(t, value) :: before, after, rfl, ?_, hs⟩
      rw [ho, written_cons, List.length_append, Field.length_layout]
      omega

theorem map_value_filter_placed (w : HeaderWidth) (fields : FieldList) (t : Tag) (offset : Nat) :
    ((placed w offset fields).filter fun f => f.tag = t).map Field.value =
      (fields.filter fun f => f.1 = t).map Prod.snd := by
  induction fields generalizing offset with
  | nil => rfl
  | cons f fields ih =>
    obtain ⟨u, value⟩ := f
    by_cases hu : u = t <;> simp [placed, hu, ih]

end FieldList

namespace Field

open FieldList

variable {fields : FieldList} {t : Tag}

theorem encode_eq_ok_iff {w : HeaderWidth} {value b : Bytes} :
    encode w t value = .ok b ↔ value.length ≤ w.maxValue ∧ b = layout w t value := by
  unfold encode
  split
  · rename_i hlong
    simp only [reduceCtorEq, false_iff]
    omega
  · rename_i hshort
    simp only [Except.ok.injEq, Nat.le_of_not_lt hshort, true_and]
    exact eq_comm

theorem encodeAll_eq_ok_iff {b : Bytes} :
    encodeAll fields = .ok b ↔ Fits .short fields ∧ b = written .short fields := by
  induction fields generalizing b with
  | nil => simp [encodeAll, Fits, eq_comm]
  | cons f fields ih =>
    obtain ⟨t, value⟩ := f
    simp only [encodeAll, bind_eq_ok_iff, encode_eq_ok_iff, pure_eq_ok, Except.ok.injEq, ih]
    constructor
    · rintro ⟨_, ⟨hv, rfl⟩, _, ⟨hf, rfl⟩, rfl⟩
      exact ⟨List.forall_mem_cons.mpr ⟨hv, hf⟩, rfl⟩
    · rintro ⟨hf, rfl⟩
      exact ⟨_, ⟨hf.head, rfl⟩, _, ⟨hf.tail, rfl⟩, rfl⟩

theorem ne_nil_of_takeFirst {w : HeaderWidth} {offset : Nat} {bytes rest : Bytes} {f : Field}
    (h : takeFirst w offset bytes = .ok (f, rest)) : bytes ≠ [] := by
  rintro rfl
  exact Nat.not_lt_zero _ (length_lt_of_takeFirst h)

theorem scanFrom_eq_cons {w : HeaderWidth} {offset : Nat} {bytes rest : Bytes} {f : Field}
    (h : takeFirst w offset bytes = .ok (f, rest)) :
    scanFrom w offset bytes = .ok f :: scanFrom w f.stop rest := by
  rw [scanFrom, if_neg (ne_nil_of_takeFirst h)]
  split
  · simp_all
  · simp_all

theorem findFirstFrom_eq_ite {offset : Nat} {bytes rest : Bytes} {f : Field}
    (h : takeFirst .short offset bytes = .ok (f, rest)) :
    findFirstFrom t offset bytes =
      if f.tag = t then .ok (some f) else findFirstFrom t f.stop rest := by
  rw [findFirstFrom, if_neg (ne_nil_of_takeFirst h)]
  split
  · simp_all
  · simp_all

theorem findAllFrom_eq_map {offset : Nat} {bytes rest : Bytes} {f : Field}
    (h : takeFirst .short offset bytes = .ok (f, rest)) :
    findAllFrom t offset bytes =
      (findAllFrom t f.stop rest).map fun found => if f.tag = t then f :: found else found := by
  rw [findAllFrom, if_neg (ne_nil_of_takeFirst h)]
  split
  · simp_all
  · rename_i g rest' hg
    rw [h] at hg
    cases hg
    cases findAllFrom t f.stop rest <;> simp

theorem scanFrom_written {w : HeaderWidth} (h : Fits w fields) (offset : Nat) (rest : Bytes) :
    scanFrom w offset (written w fields ++ rest) =
      (placed w offset fields).map .ok ++ scanFrom w (offset + (written w fields).length) rest := by
  induction fields generalizing offset with
  | nil => rfl
  | cons f fields ih =>
    obtain ⟨t, value⟩ := f
    rw [written_cons, List.append_assoc, scanFrom_eq_cons (takeFirst_layout h.head ..), ih h.tail]
    simp [placed, Nat.add_assoc]

theorem findFirstFrom_written (h : Fits .short fields) (offset : Nat) (rest : Bytes) :
    findFirstFrom t offset (written .short fields ++ rest) =
      match (placed .short offset fields).find? (fun f => f.tag = t) with
      | some f => .ok (some f)
      | none => findFirstFrom t (offset + (written .short fields).length) rest := by
  induction fields generalizing offset with
  | nil => rfl
  | cons f fields ih =>
    obtain ⟨u, value⟩ := f
    rw [written_cons, List.append_assoc, findFirstFrom_eq_ite (takeFirst_layout h.head ..),
      ih h.tail]
    by_cases hu : u = t
    · simp [placed, hu]
    · simp [placed, hu, Nat.add_assoc]

theorem findAllFrom_written (h : Fits .short fields) (offset : Nat) (rest : Bytes) :
    findAllFrom t offset (written .short fields ++ rest) =
      (findAllFrom t (offset + (written .short fields).length) rest).map
        ((placed .short offset fields).filter (fun f => f.tag = t) ++ ·) := by
  induction fields generalizing offset with
  | nil => cases hr : findAllFrom t offset rest <;> simp [placed, hr]
  | cons f fields ih =>
    obtain ⟨u, value⟩ := f
    rw [written_cons, List.append_assoc, findAllFrom_eq_map (takeFirst_layout h.head ..), ih h.tail]
    simp only [List.length_append, length_layout, ← Nat.add_assoc]
    generalize offset + HeaderWidth.short.size + value.length + (written .short fields).length = k
    cases findAllFrom t k rest with
    | error e => rfl
    | ok found => by_cases hu : u = t <;> simp [placed, hu]

theorem scanError?_map_ok (found : List Field) : scanError? (found.map .ok) = none := by
  induction found with
  | nil => rfl
  | cons f found ih => exact ih

end Field

end SignedLedger
