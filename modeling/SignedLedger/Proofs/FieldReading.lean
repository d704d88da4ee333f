import SignedLedger.Proofs.FieldSequence

/-! What is read was written. A field that is read stands at the front of the bytes as it would be
written there, and so bytes read in one way only. -/

namespace SignedLedger

theorem Tag.bytes_ofBytes {b : Bytes} (h : b.length = 2) : (ofBytes b).bytes = b := by
  have hlt : ofBigEndian b < 2 ^ 16 := by
    have hb := ofBigEndian_lt b
    rwa [h] at hb
  have hread := bigEndian_ofBigEndian b
  rw [h] at hread
  rw [bytes, ofBytes, UInt16.toNat_ofNat_of_lt' hlt, hread]

namespace Field

open FieldList

variable {w : HeaderWidth} {offset : Nat} {bytes rest : Bytes} {f : Field} {t : Tag}

theorem header_eq {header : Bytes} (h : header.length = w.size) :
    header = (Tag.ofBytes (header.take 2)).bytes ++
      bigEndian w.lengthBytes (ofBigEndian (header.drop 2)) := by
  have htag : (header.take 2).length = 2 := by
    rw [List.length_take, h, HeaderWidth.size]
    omega
  have hlength : (header.drop 2).length = w.lengthBytes := by
    rw [List.length_drop, h, HeaderWidth.size]
    omega
  have hread := bigEndian_ofBigEndian (header.drop 2)
  rw [hlength] at hread
  rw [Tag.bytes_ofBytes htag, hread, List.take_append_drop]

theorem declared_le {header : Bytes} (h : header.length = w.size) :
    ofBigEndian (header.drop 2) ≤ w.maxValue := by
  have hlt := ofBigEndian_lt (header.drop 2)
  have hlength : (header.drop 2).length = w.lengthBytes := by
    rw [List.length_drop, h, HeaderWidth.size]
    omega
  rw [hlength] at hlt
  rw [HeaderWidth.maxValue]
  omega

theorem takeFirst_eq_ok_iff :
    takeFirst w offset bytes = .ok (f, rest) ↔
      f.value.length ≤ w.maxValue ∧ bytes = layout w f.tag f.value ++ rest ∧
        f.offset = offset ∧ f.stop = offset + w.size + f.value.length := by
  constructor
  · intro h
    unfold takeFirst at h
    dsimp only at h
    split at h
    · cases h
    · rename_i hsize
      split at h
      · cases h
      · rename_i hdeclared
        cases h
        have hheader : (bytes.take w.size).length = w.size := by
          have hle := List.length_take_le w.size bytes
          omega
        have hle := declared_le hheader
        have hvalue : ((bytes.drop w.size).take (ofBigEndian ((bytes.take w.size).drop 2))).length =
            ofBigEndian ((bytes.take w.size).drop 2) := by
          have hle := List.length_take_le (ofBigEndian ((bytes.take w.size).drop 2)) (bytes.drop w.size)
          omega
        refine ⟨by rw [hvalue]; exact hle, ?_, rfl, by rw [hvalue]⟩
        rw [layout, hvalue, ← header_eq hheader, List.append_assoc, List.take_append_drop,
          List.take_append_drop]
  · rintro ⟨hv, rfl, rfl, hs⟩
    rw [takeFirst_layout hv, ← hs]

/-- The first field with a tag follows fields with other tags, and anything may follow it. -/
theorem findFirstFrom_eq_some_iff :
    findFirstFrom t offset bytes = .ok (some f) ↔
      ∃ fields rest, fields.Lacks t ∧ FieldList.Fits .short (fields ++ [(t, f.value)]) ∧
        bytes = FieldList.written .short (fields ++ [(t, f.value)]) ++ rest ∧ f.tag = t ∧
        f.offset = offset + (written .short fields).length ∧
        f.stop = f.offset + HeaderWidth.short.size + f.value.length := by
  constructor
  · intro h
    fun_induction findFirstFrom t offset bytes with
    | case1 => cases h
    | case2 => cases h
    | case3 offset bytes hne g rest hread ht =>
      obtain ⟨hg, hbytes, hoffset, hstop⟩ := takeFirst_eq_ok_iff.mp hread
      obtain rfl : g = f := Option.some.inj (Except.ok.inj h)
      refine ⟨[], rest, by simp [Lacks], by simpa [Fits] using hg, by simpa [← ht] using hbytes, ht,
        by simpa using hoffset, by rw [hstop, hoffset]⟩
    | case4 offset bytes hne g rest hread ht ih =>
      obtain ⟨hg, hbytes, hoffset, hstop⟩ := takeFirst_eq_ok_iff.mp hread
      obtain ⟨fields, last, hl, hf, hrest, htag, ho, hs⟩ := ih h
      refine ⟨(g.tag, g.value) :: fields, last, List.forall_mem_cons.mpr ⟨ht, hl⟩,
        List.forall_mem_cons.mpr ⟨hg, hf⟩, ?_, htag, ?_, hs⟩
      · rw [hbytes, hrest]
        simp
      · rw [ho, hstop, written_cons, List.length_append, length_layout]
        omega
  · rintro ⟨fields, rest, hl, hf, rfl, htag, ho, hs⟩
    have hfound : (placed .short offset (fields ++ [(t, f.value)])).find? (fun g => g.tag = t) =
        some f := by
      rw [find?_placed offset hl, ← ho, ← hs, ← htag]
    rw [findFirstFrom_written hf, hfound]

theorem offset_le_of_findFirstFrom (h : findFirstFrom t offset bytes = .ok (some f)) :
    offset ≤ f.offset ∧ f.offset < f.stop := by
  obtain ⟨_, _, _, _, _, _, ho, hs⟩ := findFirstFrom_eq_some_iff.mp h
  have hw := HeaderWidth.short.size_pos
  omega

end Field

end SignedLedger
