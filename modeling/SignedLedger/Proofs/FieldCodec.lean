import Mathlib.Data.List.Chain
import SignedLedger.Proofs.SignedCertificate

/-! The codec of fields, in both directions. Bytes that read without an error are the encodings of
the fields that are read, one after the other, and these fields lie side by side in them. A sequence
of fields has therefore one encoding, and an encoding belongs to one sequence. -/

namespace SignedLedger

namespace Field

open FieldList

/-- What a field says, apart from its place. -/
def content (f : Field) : Tag × Bytes :=
  (f.tag, f.value)

/-- The encodings of the fields, one after the other. -/
def encodeEach (w : HeaderWidth) (fields : FieldList) : Except CodecError Bytes :=
  (fields.mapM fun f => encode w f.1 f.2).map List.flatten

/-- That reading all of `b` yields these fields and no error. -/
def Yields (w : HeaderWidth) (b : Bytes) (found : List Field) : Prop :=
  scan w b 0 b.length = found.map .ok

/-- That the fields lie side by side in `b`, from its first byte to its last, each in the range that
its encoding fills. -/
structure Tiles (w : HeaderWidth) (b : Bytes) (found : List Field) : Prop where
  first : ∀ f ∈ found.head?, f.offset = 0
  adjacent : found.IsChain fun f g => g.offset = f.stop
  size : ∀ f ∈ found, f.stop = f.offset + w.size + f.value.length
  last : ∀ f ∈ found.getLast?, f.stop = b.length
  filled : ∀ f ∈ found, encode w f.tag f.value = .ok (range b f.offset f.stop)

/-- That reading undoes writing and writing undoes reading. -/
structure Bijective (w : HeaderWidth) : Prop where
  reads_iff : ∀ b fields,
    (∃ found, Yields w b found ∧ found.map content = fields) ↔ encodeEach w fields = .ok b
  tiles : ∀ b found, Yields w b found → Tiles w b found
  injective : ∀ b fields more, encodeEach w fields = .ok b → encodeEach w more = .ok b →
    fields = more

variable {w : HeaderWidth} {offset : Nat} {b bytes : Bytes} {fields more : FieldList} {f : Field}
variable {found : List Field}

theorem map_content_placed (w : HeaderWidth) (offset : Nat) (fields : FieldList) :
    (placed w offset fields).map content = fields := by
  induction fields generalizing offset with
  | nil => rfl
  | cons f fields ih =>
    obtain ⟨t, value⟩ := f
    rw [placed, List.map_cons, ih]
    rfl

theorem encodeEach_cons (w : HeaderWidth) (t : Tag) (value : Bytes) (fields : FieldList) :
    encodeEach w ((t, value) :: fields) = (do
      let first ← encode w t value
      let rest ← encodeEach w fields
      pure (first ++ rest)) := by
  rw [encodeEach, encodeEach, List.mapM_cons]
  cases encode w t value with
  | error e => rfl
  | ok first => cases fields.mapM fun f => encode w f.1 f.2 <;> rfl

theorem encodeEach_eq_ok_iff :
    encodeEach w fields = .ok b ↔ Fits w fields ∧ b = written w fields := by
  induction fields generalizing b with
  | nil => simp [encodeEach, Fits, eq_comm]
  | cons f fields ih =>
    obtain ⟨t, value⟩ := f
    simp only [encodeEach_cons, bind_eq_ok_iff, encode_eq_ok_iff, pure_eq_ok, Except.ok.injEq, ih]
    constructor
    · rintro ⟨_, ⟨hv, rfl⟩, _, ⟨hf, rfl⟩, rfl⟩
      exact ⟨List.forall_mem_cons.mpr ⟨hv, hf⟩, rfl⟩
    · rintro ⟨hf, rfl⟩
      exact ⟨_, ⟨hf.head, rfl⟩, _, ⟨hf.tail, rfl⟩, rfl⟩

/-- Bytes that read without an error are what is written for the fields. -/
theorem scanFrom_eq_map_ok_iff :
    scanFrom w offset bytes = found.map .ok ↔
      ∃ fields, Fits w fields ∧ bytes = written w fields ∧ found = placed w offset fields := by
  constructor
  · intro h
    fun_induction scanFrom w offset bytes generalizing found with
    | case1 =>
      obtain rfl : found = [] := by simpa using h.symm
      exact ⟨[], by simp [Fits], rfl, rfl⟩
    | case2 => cases found <;> simp at h
    | case3 offset bytes hne g rest hread ih =>
      obtain ⟨hg, hbytes, hoffset, hstop⟩ := takeFirst_eq_ok_iff.mp hread
      cases found with
      | nil => simp at h
      | cons f found =>
        obtain ⟨hfirst, hrest⟩ := List.cons.inj h
        obtain rfl : g = f := Except.ok.inj hfirst
        obtain ⟨fields, hf, rfl, rfl⟩ := ih hrest
        refine ⟨g.content :: fields, List.forall_mem_cons.mpr ⟨hg, hf⟩, hbytes, ?_⟩
        rw [content, placed, ← hstop, ← hoffset]
  · rintro ⟨fields, hf, rfl, rfl⟩
    have hw := scanFrom_written hf offset []
    rw [List.append_nil] at hw
    simp [hw, scanFrom]

theorem yields_iff :
    Yields w b found ↔
      ∃ fields, Fits w fields ∧ b = written w fields ∧ found = placed w 0 fields := by
  rw [Yields, scan, range_zero, List.take_length]
  exact scanFrom_eq_map_ok_iff

/-! The ranges of the fields. -/

theorem isChain_placed (w : HeaderWidth) (offset : Nat) (fields : FieldList) :
    (placed w offset fields).IsChain fun f g => g.offset = f.stop := by
  induction fields generalizing offset with
  | nil => exact .nil
  | cons f fields ih =>
    obtain ⟨t, value⟩ := f
    have hrest := ih (offset + w.size + value.length)
    cases fields with
    | nil => exact .singleton _
    | cons g fields => exact .cons_cons rfl hrest

theorem stop_of_mem_getLast?_placed (hf : f ∈ (placed w offset fields).getLast?) :
    f.stop = offset + (written w fields).length := by
  induction fields using List.reverseRecOn with
  | nil => cases hf
  | append_singleton fields g _ =>
    obtain ⟨t, value⟩ := g
    obtain rfl : _ = f := by simpa [placed_append, placed] using hf
    simp [Nat.add_assoc]

theorem range_append (before middle after : Bytes) :
    range (before ++ middle ++ after) before.length (before.length + middle.length) = middle := by
  rw [range, List.take_left' (by simp), List.drop_left]

theorem tiles_placed (hf : Fits w fields) : Tiles w (written w fields) (placed w 0 fields) where
  first := by cases fields <;> simp [placed]
  adjacent := isChain_placed w 0 fields
  size := by
    intro f hm
    obtain ⟨_, _, _, _, hs⟩ := exists_of_mem_placed hm
    exact hs
  last := fun f hl => by rw [stop_of_mem_getLast?_placed hl, Nat.zero_add]
  filled := by
    intro f hm
    obtain ⟨before, after, rfl, ho, hs⟩ := exists_of_mem_placed hm
    have hv : f.value.length ≤ w.maxValue := hf (f.tag, f.value) (by simp)
    have hstop : f.stop = (written w before).length + (layout w f.tag f.value).length := by
      rw [hs, ho, length_layout]
      omega
    rw [encode_eq_ok_iff, ho, hstop, Nat.zero_add, written_append, written_cons, ← List.append_assoc,
      range_append]
    exact ⟨hv, rfl⟩

theorem bijective (w : HeaderWidth) : Bijective w where
  reads_iff := by
    intro b fields
    rw [encodeEach_eq_ok_iff]
    constructor
    · rintro ⟨found, hy, rfl⟩
      obtain ⟨fields, hf, hb, rfl⟩ := yields_iff.mp hy
      rw [map_content_placed]
      exact ⟨hf, hb⟩
    · rintro ⟨hf, hb⟩
      exact ⟨_, yields_iff.mpr ⟨fields, hf, hb, rfl⟩, map_content_placed w 0 fields⟩
  tiles := by
    intro b found hy
    obtain ⟨fields, hf, rfl, rfl⟩ := yields_iff.mp hy
    exact tiles_placed hf
  injective := by
    intro b fields more hfields hmore
    obtain ⟨hf, rfl⟩ := encodeEach_eq_ok_iff.mp hfields
    obtain ⟨hm, hb⟩ := encodeEach_eq_ok_iff.mp hmore
    -- Both sequences are what reading the same bytes yields.
    have hread : Yields w (written w fields) (placed w 0 fields) :=
      yields_iff.mpr ⟨fields, hf, rfl, rfl⟩
    have hread' : Yields w (written w fields) (placed w 0 more) :=
      yields_iff.mpr ⟨more, hm, hb, rfl⟩
    have hplaced : placed w 0 fields = placed w 0 more :=
      List.map_injective_iff.mpr (fun _ _ => Except.ok.inj) (hread.symm.trans hread')
    rw [← map_content_placed w 0 fields, hplaced, map_content_placed]

theorem scanError?_eq_none_iff {items : List (Except CodecError Field)} :
    scanError? items = none ↔ ∃ found : List Field, items = found.map .ok := by
  constructor
  · intro h
    induction items with
    | nil => exact ⟨[], rfl⟩
    | cons item items ih =>
      cases item with
      | error e => cases h
      | ok f =>
        obtain ⟨found, rfl⟩ := ih h
        exact ⟨f :: found, rfl⟩
  · rintro ⟨found, rfl⟩
    exact scanError?_map_ok found

end Field

namespace Certificate

open FieldList

variable {b : Bytes} {c : Certificate} {fields : FieldList} {found : List Field}

theorem parse_eq_ok_iff : parse b = .ok c ↔ c = .ofBytes b ∧ ∃ found, Field.Yields .short b found := by
  have hscan : (ofBytes b).fields = Field.scan .short b 0 b.length := rfl
  simp only [Field.Yields, ← hscan, ← Field.scanError?_eq_none_iff, parse]
  cases Field.scanError? (ofBytes b).fields <;> simp [eq_comm]

theorem emit_eq_ok_iff :
    fields.emit = .ok c ↔
      fields ≠ [] ∧ fields.Fits .short ∧ c = .ofBytes (fields.written .short) := by
  unfold emit
  by_cases hf : fields = []
  · simp [hf]
  · simp only [hf, if_false, bind_eq_ok_iff, serialize_eq_ok_iff, pure_eq_ok, Except.ok.injEq]
    constructor
    · rintro ⟨_, ⟨hfits, rfl⟩, rfl⟩
      exact ⟨hf, hfits, rfl⟩
    · rintro ⟨_, hfits, rfl⟩
      exact ⟨_, ⟨hfits, rfl⟩, rfl⟩

/-- That a certificate which is built reads as the fields that it was built from, and that what is
built from the fields of a certificate is the certificate. -/
structure RoundTrips : Prop where
  built : ∀ fields : FieldList, fields ≠ [] → fields.Fits .short →
    ∃ (c : Certificate) (found : List Field), fields.emit = .ok c ∧ parse c.raw = .ok c ∧
      c.fields = found.map .ok ∧ found.map Field.content = fields
  rebuilt : ∀ b c, parse b = .ok c → ∃ found : List Field, c.fields = found.map .ok ∧
    Field.encodeEach .short (found.map Field.content) = .ok b ∧
      (found ≠ [] → FieldList.emit (found.map Field.content) = .ok c)

theorem roundTrips : RoundTrips where
  built := by
    intro fields hne hf
    have hy : Field.Yields .short (fields.written .short) (fields.placed .short 0) :=
      Field.yields_iff.mpr ⟨fields, hf, rfl, rfl⟩
    refine ⟨.ofBytes (fields.written .short), fields.placed .short 0,
      emit_eq_ok_iff.mpr ⟨hne, hf, rfl⟩, parse_eq_ok_iff.mpr ⟨rfl, _, hy⟩, hy,
      Field.map_content_placed .short 0 fields⟩
  rebuilt := by
    intro b c hc
    obtain ⟨rfl, found, hy⟩ := parse_eq_ok_iff.mp hc
    obtain ⟨fields, hf, rfl, rfl⟩ := Field.yields_iff.mp hy
    refine ⟨fields.placed .short 0, hy, ?_, ?_⟩
    · rw [Field.map_content_placed]
      exact Field.encodeEach_eq_ok_iff.mpr ⟨hf, rfl⟩
    · intro hne
      rw [Field.map_content_placed]
      have hfields : fields ≠ [] := by
        rintro rfl
        exact hne rfl
      exact emit_eq_ok_iff.mpr ⟨hfields, hf, rfl⟩

end Certificate

namespace Field

/-- Reading and writing undo each other, for headers of both widths and for whole certificates. -/
theorem codec_bijective : (∀ w, Bijective w) ∧ Certificate.RoundTrips :=
  ⟨bijective, Certificate.roundTrips⟩

end Field

end SignedLedger
