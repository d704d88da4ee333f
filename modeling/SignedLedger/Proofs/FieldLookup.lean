import SignedLedger.Proofs.FieldIteration
import SignedLedger.Proofs.VisiblePart

/-! Looking fields up and going through them. A search reads on only until it has what it looks for,
and so the three of them stop at different places. They agree nevertheless: what a search finds, and
how it fails, is told by the items of the range. What is found does not depend on anything behind
it. -/

namespace SignedLedger

namespace Field

/-- The first field of a tag among the items, unless an error comes before it. -/
def firstOf (t : Tag) : List (Except CodecError Field) → Except CodecError (Option Field)
  | [] => .ok none
  | .error e :: _ => .error e
  | .ok f :: items => if f.tag = t then .ok (some f) else firstOf t items

/-- All fields of a tag among the items, unless there is an error. -/
def allOf (t : Tag) : List (Except CodecError Field) → Except CodecError (List Field)
  | [] => .ok []
  | .error e :: _ => .error e
  | .ok f :: items => (allOf t items).map fun found => if f.tag = t then f :: found else found

variable {t : Tag} {bytes : Bytes} {offset : Nat} {items rest : List (Except CodecError Field)}
variable {fields found : List Field} {e : CodecError} {f : Field}

theorem scanFrom_nil (w : HeaderWidth) (offset : Nat) : scanFrom w offset [] = [] := by
  rw [scanFrom, if_pos rfl]

theorem scanFrom_eq_singleton {w : HeaderWidth} (hne : bytes ≠ [])
    (h : takeFirst w offset bytes = .error e) : scanFrom w offset bytes = [.error e] := by
  rw [scanFrom, if_neg hne]
  split
  · simp_all
  · simp_all

theorem findFirstFrom_eq_firstOf (t : Tag) (offset : Nat) (bytes : Bytes) :
    findFirstFrom t offset bytes = firstOf t (scanFrom .short offset bytes) := by
  fun_induction findFirstFrom t offset bytes with
  | case1 => rw [scanFrom_nil, firstOf]
  | case2 offset bytes hne e hread => rw [scanFrom_eq_singleton hne hread, firstOf]
  | case3 offset bytes hne f rest hread ht =>
    rw [scanFrom_eq_cons hread, firstOf, if_pos ht]
  | case4 offset bytes hne f rest hread ht ih =>
    rw [scanFrom_eq_cons hread, firstOf, if_neg ht, ih]

theorem findAllFrom_eq_allOf (t : Tag) (offset : Nat) (bytes : Bytes) :
    findAllFrom t offset bytes = allOf t (scanFrom .short offset bytes) := by
  fun_induction scanFrom .short offset bytes with
  | case1 => simp [findAllFrom, allOf]
  | case2 offset bytes hne e hread =>
    rw [findAllFrom, if_neg hne, allOf]
    split
    · simp_all
    · simp_all
  | case3 offset bytes hne f rest hread ih => rw [findAllFrom_eq_map hread, ih, allOf]

theorem firstOf_append (t : Tag) (fields : List Field) (rest : List (Except CodecError Field)) :
    firstOf t (fields.map .ok ++ rest) =
      match fields.find? (fun f => f.tag = t) with
      | some f => .ok (some f)
      | none => firstOf t rest := by
  induction fields with
  | nil => rfl
  | cons f fields ih =>
    by_cases ht : f.tag = t
    · simp [firstOf, ht]
    · simp [firstOf, ht, ih]

theorem allOf_append (t : Tag) (fields : List Field) (rest : List (Except CodecError Field)) :
    allOf t (fields.map .ok ++ rest) =
      (allOf t rest).map (fields.filter (fun f => f.tag = t) ++ ·) := by
  induction fields with
  | nil => cases hr : allOf t rest <;> simp [hr]
  | cons f fields ih =>
    simp only [List.map_cons, List.cons_append, allOf, ih]
    cases allOf t rest with
    | error e => rfl
    | ok found => by_cases ht : f.tag = t <;> simp [ht]

/-- That a search for the first field of a tag and one for all of them are told by the items. -/
structure Agrees (t : Tag) (items : List (Except CodecError Field))
    (first : Except CodecError (Option Field)) (all : Except CodecError (List Field)) : Prop where
  found_iff : ∀ f, first = .ok (some f) ↔
    ∃ (before : List Field) (after : _), items = before.map .ok ++ .ok f :: after ∧ f.tag = t ∧ ∀ g ∈ before, g.tag ≠ t
  failed_iff : ∀ e, first = .error e ↔
    ∃ before : List Field, items = before.map .ok ++ [.error e] ∧ ∀ g ∈ before, g.tag ≠ t
  absent_iff : first = .ok none ↔
    ∃ fields : List Field, items = fields.map .ok ∧ ∀ g ∈ fields, g.tag ≠ t
  all_failed_iff : ∀ e, all = .error e ↔ ∃ before : List Field, items = before.map .ok ++ [.error e]
  all_iff : ∀ found, all = .ok found ↔
    ∃ fields : List Field, items = fields.map .ok ∧ found = fields.filter fun f => f.tag = t
  head : ∀ found, all = .ok found → first = .ok found.head?

theorem firstOf_of_forall (h : ∀ g ∈ fields, g.tag ≠ t) (rest : List (Except CodecError Field)) :
    firstOf t (fields.map .ok ++ rest) = firstOf t rest := by
  have hnone : fields.find? (fun f => f.tag = t) = none :=
    List.find?_eq_none.mpr fun g hg => by simpa using h g hg
  rw [firstOf_append, hnone]

theorem firstOf_map_ok (t : Tag) (fields : List Field) :
    firstOf t (fields.map .ok) = .ok (fields.find? fun f => f.tag = t) := by
  have h := firstOf_append t fields []
  rw [List.append_nil] at h
  rw [h]
  cases fields.find? fun f => f.tag = t <;> rfl

theorem allOf_map_ok (t : Tag) (fields : List Field) :
    allOf t (fields.map .ok) = .ok (fields.filter fun f => f.tag = t) := by
  have h := allOf_append t fields []
  rw [List.append_nil] at h
  rw [h, allOf, map_ok, List.append_nil]

theorem firstOf_append_error (t : Tag) (fields : List Field) (e : CodecError) :
    firstOf t (fields.map .ok ++ [.error e]) =
      match fields.find? (fun f => f.tag = t) with
      | some f => .ok (some f)
      | none => .error e :=
  firstOf_append t fields _

theorem allOf_append_error (t : Tag) (fields : List Field) (e : CodecError) :
    allOf t (fields.map .ok ++ [.error e]) = .error e :=
  allOf_append t fields _

/-- What is found stands among the items, behind fields of other tags. -/
theorem firstOf_eq_some_iff :
    firstOf t items = .ok (some f) ↔
      ∃ (before : List Field) (after : _), items = before.map .ok ++ .ok f :: after ∧ f.tag = t ∧
        ∀ g ∈ before, g.tag ≠ t := by
  constructor
  · intro h
    induction items with
    | nil => cases h
    | cons item items ih =>
      cases item with
      | error e => cases h
      | ok g =>
        rw [firstOf] at h
        split at h
        · rename_i ht
          cases h
          exact ⟨[], items, rfl, ht, by simp⟩
        · rename_i ht
          obtain ⟨before, after, rfl, htag, hbefore⟩ := ih h
          exact ⟨g :: before, after, rfl, htag, List.forall_mem_cons.mpr ⟨ht, hbefore⟩⟩
  · rintro ⟨before, after, rfl, ht, hbefore⟩
    rw [firstOf_of_forall hbefore, firstOf, if_pos ht]

/-- The items of an iteration settle a search: there is no error among them, or it is the last. -/
theorem agrees_of_items (hi : items = fields.map .ok ∨ ∃ e, items = fields.map .ok ++ [.error e])
    (t : Tag) : Agrees t items (firstOf t items) (allOf t items) where
  found_iff := fun f => firstOf_eq_some_iff
  failed_iff := by
    intro e
    constructor
    · intro h
      rcases hi with rfl | ⟨e', rfl⟩
      · rw [firstOf_map_ok] at h
        cases h
      · rw [firstOf_append_error] at h
        split at h
        · cases h
        · rename_i hnone
          cases h
          exact ⟨fields, rfl, fun g hg => by simpa using List.find?_eq_none.mp hnone g hg⟩
    · rintro ⟨before, rfl, hbefore⟩
      rw [firstOf_of_forall hbefore, firstOf]
  absent_iff := by
    constructor
    · intro h
      rcases hi with rfl | ⟨e, rfl⟩
      · rw [firstOf_map_ok] at h
        have hnone := Except.ok.inj h
        exact ⟨fields, rfl, fun g hg => by simpa using List.find?_eq_none.mp hnone g hg⟩
      · rw [firstOf_append_error] at h
        split at h <;> cases h
    · rintro ⟨found, rfl, hfound⟩
      rw [firstOf_map_ok, List.find?_eq_none.mpr fun g hg => by simpa using hfound g hg]
  all_failed_iff := by
    intro e
    constructor
    · intro h
      rcases hi with rfl | ⟨e', rfl⟩
      · rw [allOf_map_ok] at h
        cases h
      · rw [allOf_append_error] at h
        cases h
        exact ⟨fields, rfl⟩
    · rintro ⟨before, rfl⟩
      exact allOf_append_error t before e
  all_iff := by
    intro found
    constructor
    · intro h
      rcases hi with rfl | ⟨e, rfl⟩
      · rw [allOf_map_ok] at h
        exact ⟨fields, rfl, (Except.ok.inj h).symm⟩
      · rw [allOf_append_error] at h
        cases h
    · rintro ⟨found, rfl, rfl⟩
      exact allOf_map_ok t found
  head := by
    intro found h
    rcases hi with rfl | ⟨e, rfl⟩
    · rw [allOf_map_ok] at h
      rw [firstOf_map_ok, ← Except.ok.inj h, List.head?_filter]
    · rw [allOf_append_error] at h
      cases h

theorem agrees_scan (b : Bytes) (stop : Nat) (t : Tag) :
    Agrees t (scan .short b 0 stop) (findFirst b stop t) (findAll b stop t) := by
  obtain ⟨fields, ended, hitems, _⟩ := (walks_scan .short b 0 stop).exists_laid
  have hshape : scan .short b 0 stop = fields.map .ok ∨
      ∃ e, scan .short b 0 stop = fields.map .ok ++ [.error e] := by
    cases ended with
    | none => exact .inl (hitems.trans (List.append_nil _))
    | some e => exact .inr ⟨e, hitems⟩
  rw [findFirst, findAll, findFirstFrom_eq_firstOf, findAllFrom_eq_allOf]
  exact agrees_of_items hshape t

/-! What is found is found again wherever the bytes up to its end are the same. -/

variable {b d : Bytes} {stop stop' : Nat}

theorem take_of_findFirst (h : findFirst b stop t = .ok (some f)) :
    f.stop ≤ min stop b.length ∧ ∃ fields : FieldList, fields.Lacks t ∧
      FieldList.Fits .short (fields ++ [(t, f.value)]) ∧
      b.take f.stop = FieldList.written .short (fields ++ [(t, f.value)]) ∧ f.tag = t ∧
      f.offset = 0 + (fields.written .short).length ∧
      f.stop = f.offset + HeaderWidth.short.size + f.value.length := by
  rw [findFirst, range_zero, findFirstFrom_eq_some_iff] at h
  obtain ⟨fields, rest, hl, hf, hbytes, ht, ho, hs⟩ := h
  have hlength : (FieldList.written .short (fields ++ [(t, f.value)])).length = f.stop := by
    rw [hs, ho, FieldList.written_append, List.length_append]
    simp [Nat.add_assoc]
  have hle : f.stop ≤ min stop b.length := by
    rw [← List.length_take, hbytes, List.length_append, hlength]
    exact Nat.le_add_right _ _
  refine ⟨hle, fields, hl, hf, ?_, ht, ho, hs⟩
  have htake := congrArg (List.take f.stop) hbytes
  rw [List.take_left' hlength, List.take_take, Nat.min_eq_left (Nat.le_min.mp hle).1] at htake
  exact htake

theorem findFirst_of_take (h : findFirst b stop t = .ok (some f)) (hle : f.stop ≤ stop')
    (hd : d.take f.stop = b.take f.stop) : findFirst d stop' t = .ok (some f) := by
  obtain ⟨_, fields, hl, hf, hb, ht, ho, hs⟩ := take_of_findFirst h
  rw [findFirst, range_zero, findFirstFrom_eq_some_iff]
  refine ⟨fields, (d.take stop').drop f.stop, hl, hf, ?_, ht, ho, hs⟩
  have htake : (d.take stop').take f.stop = d.take f.stop := by
    rw [List.take_take, Nat.min_eq_left hle]
  rw [← hb, ← hd, ← htake, List.take_append_drop]

/-- That the look-ups of a tag in the first `stop` bytes of `b` are told by the items there, and that
what is found depends on the bytes up to its end alone. -/
structure LooksUp (b : Bytes) (stop : Nat) (t : Tag) : Prop where
  agrees : Agrees t (scan .short b 0 stop) (findFirst b stop t) (findAll b stop t)
  within : ∀ f, findFirst b stop t = .ok (some f) → f.stop ≤ min stop b.length
  stable : ∀ f, findFirst b stop t = .ok (some f) → ∀ (d : Bytes) stop', f.stop ≤ stop' →
    d.take f.stop = b.take f.stop → findFirst d stop' t = .ok (some f)

theorem looksUp (b : Bytes) (stop : Nat) (t : Tag) : LooksUp b stop t where
  agrees := agrees_scan b stop t
  within := fun _ h => (take_of_findFirst h).1
  stable := fun _ h _ _ hle hd => findFirst_of_take h hle hd

end Field

namespace Certificate

/-- That the look-ups of a tag in a certificate are told by its visible fields, that requiring a
field is looking it up, and that narrowing keeps what is found exactly as long as it stays visible. -/
structure LooksUp (c : Certificate) (t : Tag) : Prop where
  agrees : Field.Agrees t c.fields (c.field t) (c.fieldsOf t)
  require_iff : ∀ f, c.require t = .ok f ↔ c.field t = .ok (some f)
  missing_iff : ∀ e, c.require t = .error e ↔
    e = .missingField t ∧ c.field t = .ok none ∨ ∃ cause, e = .codec cause ∧ c.field t = .error cause
  narrow_iff : ∀ f size, (c.narrow size).field t = .ok (some f) ↔
    c.field t = .ok (some f) ∧ f.stop ≤ size
  stable : ∀ f, c.field t = .ok (some f) → ∀ d : Certificate, f.stop ≤ d.visible →
    d.raw.take f.stop = c.raw.take f.stop → d.field t = .ok (some f)

variable {c : Certificate} {t : Tag} {e : CertificateError} {f : Field} {size : Nat}

theorem require_eq_error_iff :
    c.require t = .error e ↔
      e = .missingField t ∧ c.field t = .ok none ∨
        ∃ cause, e = .codec cause ∧ c.field t = .error cause := by
  unfold require
  rcases c.field t with cause | _ | f
  · simp [eq_comm]
  · simp [eq_comm]
  · simp

theorem field_narrow_iff :
    (c.narrow size).field t = .ok (some f) ↔ c.field t = .ok (some f) ∧ f.stop ≤ size := by
  constructor
  · intro h
    have hle := (Nat.le_min.mp (Field.take_of_findFirst h).1).1
    have hsize : f.stop ≤ min c.visible size := hle
    exact ⟨Field.findFirst_of_take h (Nat.le_min.mp hsize).1 rfl, (Nat.le_min.mp hsize).2⟩
  · rintro ⟨h, hle⟩
    have hvisible := (Nat.le_min.mp (Field.take_of_findFirst h).1).1
    exact Field.findFirst_of_take h (Nat.le_min.mpr ⟨hvisible, hle⟩) rfl

theorem looksUp (c : Certificate) (t : Tag) : LooksUp c t where
  agrees := Field.agrees_scan c.raw c.visible t
  require_iff := fun _ => require_eq_ok_iff t
  missing_iff := fun _ => require_eq_error_iff
  narrow_iff := fun _ _ => field_narrow_iff
  stable := fun _ h _ hle hd => Field.findFirst_of_take h hle hd

end Certificate

/-- Searches and iterations agree, in bytes and in certificates, and what a search finds stays found
when the range is cut behind it or carried on. -/
theorem lookups_agree :
    (∀ b stop t, Field.LooksUp b stop t) ∧ ∀ c t, Certificate.LooksUp c t :=
  ⟨Field.looksUp, Certificate.looksUp⟩

/-- A search for one field does not see the error behind it, and a search for all of them does. -/
example :
    let b := Field.layout .short .version [7] ++ [0]
    Field.findFirst b b.length .version = .ok (some ⟨.version, [7], 0, 7⟩) ∧
      Field.findAll b b.length .version = .error (.truncatedHeader 7 1 6) := by
  decide +kernel

end SignedLedger
