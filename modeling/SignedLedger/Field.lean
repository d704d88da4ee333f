import SignedLedger.Field.Tag

/-! Fields. A field is written as its tag, the length of its value and the value. The short header
has four bytes of length, the long one eight. Reading takes one field off the front of the bytes in
range and hands back the bytes that follow it. -/

namespace SignedLedger

inductive HeaderWidth where
  | short
  | long
deriving DecidableEq

namespace HeaderWidth

def lengthBytes : HeaderWidth → Nat
  | short => 4
  | long => 8

def size (w : HeaderWidth) : Nat :=
  2 + w.lengthBytes

theorem size_pos (w : HeaderWidth) : 0 < w.size := by
  rw [size]
  omega

def maxValue (w : HeaderWidth) : Nat :=
  256 ^ w.lengthBytes - 1

def text : HeaderWidth → String
  | short => "Short"
  | long => "Long"

end HeaderWidth

def encodedSize (valueSize : Nat) : Nat :=
  HeaderWidth.short.size + valueSize

inductive CodecError where
  | truncatedHeader (offset remaining needed : Nat)
  | lengthOverflow (offset declared remaining : Nat)
  | valueTooLarge (size : Nat)
deriving DecidableEq

def CodecError.message : CodecError → String
  | truncatedHeader offset remaining needed =>
    s!"truncated field header at offset {offset}: {remaining} bytes remain, {needed} needed"
  | lengthOverflow offset declared remaining =>
    s!"field at offset {offset} declares {declared} bytes but only {remaining} remain"
  | valueTooLarge size => s!"field value of {size} bytes exceeds the header length width"

/-- A field that was read: its header starts at `offset` and its value ends before `stop`. -/
structure Field where
  tag : Tag
  value : Bytes
  offset : Nat
  stop : Nat
deriving DecidableEq

namespace Field

def layout (w : HeaderWidth) (t : Tag) (value : Bytes) : Bytes :=
  t.bytes ++ bigEndian w.lengthBytes value.length ++ value

def encode (w : HeaderWidth) (t : Tag) (value : Bytes) : Except CodecError Bytes :=
  if w.maxValue < value.length then .error (.valueTooLarge value.length)
  else .ok (layout w t value)

def encodeAll : List (Tag × Bytes) → Except CodecError Bytes
  | [] => .ok []
  | (t, value) :: rest => do
    let first ← encode .short t value
    let others ← encodeAll rest
    pure (first ++ others)

/-- Takes the first field off `range`, whose first byte is at `offset`. -/
def takeFirst (w : HeaderWidth) (offset : Nat) (range : Bytes) : Except CodecError (Field × Bytes) :=
  let header := range.take w.size
  let body := range.drop w.size
  if header.length < w.size then .error (.truncatedHeader offset range.length w.size)
  else
    let declared := ofBigEndian (header.drop 2)
    let value := body.take declared
    if value.length < declared then .error (.lengthOverflow offset declared body.length)
    else
      .ok ({ tag := .ofBytes (header.take 2)
             value
             offset
             stop := offset + w.size + declared }, body.drop declared)

/-- The bytes from `offset` up to `stop`, or up to the end where `stop` lies beyond it. -/
def range (buffer : Bytes) (offset stop : Nat) : Bytes :=
  (buffer.take stop).drop offset

def decode (w : HeaderWidth) (buffer : Bytes) (offset stop : Nat) : Except CodecError Field :=
  (takeFirst w offset (range buffer offset stop)).map Prod.fst

@[simp] theorem length_layout (w : HeaderWidth) (t : Tag) (value : Bytes) :
    (layout w t value).length = w.size + value.length := by
  simp [layout, HeaderWidth.size]
  omega

/-- What is left after a field is shorter by the size of the field. -/
theorem length_of_takeFirst {w : HeaderWidth} {offset : Nat} {bytes rest : Bytes} {f : Field}
    (h : takeFirst w offset bytes = .ok (f, rest)) :
    f.offset = offset ∧ offset + w.size ≤ f.stop ∧ f.stop + rest.length = offset + bytes.length := by
  unfold takeFirst at h
  dsimp only at h
  split at h
  · cases h
  · rename_i hsize
    split at h
    · cases h
    · rename_i hdeclared
      cases h
      simp only [List.length_take, List.length_drop] at hsize hdeclared ⊢
      refine ⟨trivial, ?_, ?_⟩ <;> omega

theorem length_lt_of_takeFirst {w : HeaderWidth} {offset : Nat} {bytes rest : Bytes} {f : Field}
    (h : takeFirst w offset bytes = .ok (f, rest)) : rest.length < bytes.length := by
  have hs := length_of_takeFirst h
  have hw := w.size_pos
  omega

/-- Reading undoes writing, whatever follows and wherever the field starts. -/
theorem takeFirst_layout {w : HeaderWidth} {t : Tag} {value : Bytes} (h : value.length ≤ w.maxValue)
    (offset : Nat) (rest : Bytes) :
    takeFirst w offset (layout w t value ++ rest) =
      .ok (⟨t, value, offset, offset + w.size + value.length⟩, rest) := by
  have hs : value.length < 256 ^ w.lengthBytes := by
    have hp : 0 < 256 ^ w.lengthBytes := Nat.pow_pos (by decide)
    simp only [HeaderWidth.maxValue] at h
    omega
  have hl : (bigEndian w.lengthBytes value.length).length = w.lengthBytes := length_bigEndian ..
  have ht : t.bytes.length = 2 := t.length_bytes
  have hhead : (layout w t value ++ rest).take w.size = t.bytes ++ bigEndian w.lengthBytes value.length := by
    rw [layout, List.append_assoc, List.take_append_of_le_length (by simp [HeaderWidth.size]),
      List.take_of_length_le (by simp [HeaderWidth.size])]
  have hbody : (layout w t value ++ rest).drop w.size = value ++ rest := by
    rw [layout, List.append_assoc, List.drop_append_of_le_length (by simp [HeaderWidth.size]),
      List.drop_of_length_le (by simp [HeaderWidth.size])]
    rfl
  have htag : (t.bytes ++ bigEndian w.lengthBytes value.length).take 2 = t.bytes := by
    rw [List.take_append_of_le_length (by omega), List.take_of_length_le (by omega)]
  have hdeclared : ofBigEndian ((t.bytes ++ bigEndian w.lengthBytes value.length).drop 2) = value.length := by
    rw [List.drop_append_of_le_length (by omega), List.drop_of_length_le (by omega), List.nil_append,
      ofBigEndian_bigEndian hs]
  have hlong : ¬ (t.bytes ++ bigEndian w.lengthBytes value.length).length < w.size := by
    simp [HeaderWidth.size]
  rw [takeFirst]
  simp only [hhead]
  rw [if_neg hlong]
  simp only [hbody, htag, hdeclared, Tag.ofBytes_bytes]
  rw [if_neg (by simp)]
  simp

end Field

end SignedLedger
