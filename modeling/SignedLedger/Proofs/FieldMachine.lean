import SignedLedger.Field.Machine
import SignedLedger.Proofs.Outcome

/-! Reading one field from any bytes. Three outcomes are told apart over unbounded numbers: the
header does not fit the range, the value does not, or there is a field. A machine with words of 64
bits comes to the same one without a fault, wherever the range starts and ends. -/

namespace SignedLedger.Field

variable {w : HeaderWidth} {b : Bytes} {offset start stop n : Nat} {r r' : Except CodecError Field}

theorem length_range_eq (b : Bytes) (start stop : Nat) :
    (range b start stop).length = min stop b.length - start := by
  rw [range, List.length_drop, List.length_take]

theorem take_range (h : start + n ≤ min stop b.length) :
    (range b start stop).take n = range b start (start + n) := by
  rw [range, range, List.take_drop, List.take_take, Nat.min_eq_left (by omega)]

theorem drop_range (b : Bytes) (start stop n : Nat) :
    (range b start stop).drop n = range b (start + n) stop := by
  rw [range, range, List.drop_drop]

/-- The length that the header at `offset` declares for its value. -/
def declaredAt (w : HeaderWidth) (b : Bytes) (offset : Nat) : Nat :=
  ofBigEndian (range b (offset + 2) (offset + w.size))

/-- What reading at `offset` comes to, in a range that ends with `stop` or with the bytes. -/
inductive Reads (w : HeaderWidth) (b : Bytes) (offset stop : Nat) : Except CodecError Field → Prop
  | truncated (hh : min stop b.length < offset + w.size) :
    Reads w b offset stop (.error (.truncatedHeader offset (min stop b.length - offset) w.size))
  | overlong (hh : offset + w.size ≤ min stop b.length)
    (hd : min stop b.length < offset + w.size + declaredAt w b offset) :
    Reads w b offset stop (.error (.lengthOverflow offset (declaredAt w b offset)
      (min stop b.length - (offset + w.size))))
  | field (hd : offset + w.size + declaredAt w b offset ≤ min stop b.length) :
    Reads w b offset stop (.ok
      { tag := .ofBytes (range b offset (offset + 2))
        value := range b (offset + w.size) (offset + w.size + declaredAt w b offset)
        offset
        stop := offset + w.size + declaredAt w b offset })

theorem Reads.unique (h : Reads w b offset stop r) (h' : Reads w b offset stop r') : r = r' := by
  cases h <;> cases h' <;> first | rfl | omega

theorem reads_decode (w : HeaderWidth) (b : Bytes) (offset stop : Nat) :
    Reads w b offset stop (decode w b offset stop) := by
  have hlength := length_range_eq b offset stop
  have hbody := length_range_eq b (offset + w.size) stop
  have hdeclared : ofBigEndian (range b (offset + 2) (offset + w.size)) = declaredAt w b offset := rfl
  have hsize : 2 ≤ w.size := Nat.le_add_right 2 w.lengthBytes
  unfold decode takeFirst
  dsimp only
  by_cases hh : min stop b.length < offset + w.size
  · have hshort : ((range b offset stop).take w.size).length < w.size := by
      rw [List.length_take, hlength]
      omega
    rw [if_pos hshort, hlength]
    exact .truncated hh
  · have hle : offset + w.size ≤ min stop b.length := Nat.not_lt.mp hh
    have hlong : ¬ ((range b offset stop).take w.size).length < w.size := by
      rw [List.length_take, hlength]
      omega
    have htag : (range b offset (offset + w.size)).take 2 = range b offset (offset + 2) :=
      take_range (by omega)
    rw [if_neg hlong, take_range hle, htag, drop_range, drop_range, hdeclared]
    by_cases hd : min stop b.length < offset + w.size + declaredAt w b offset
    · have hcut : ((range b (offset + w.size) stop).take (declaredAt w b offset)).length <
          declaredAt w b offset := by
        rw [List.length_take, hbody]
        omega
      rw [if_pos hcut, hbody]
      exact .overlong hle hd
    · have hfull : ¬ ((range b (offset + w.size) stop).take (declaredAt w b offset)).length <
          declaredAt w b offset := by
        rw [List.length_take, hbody]
        omega
      rw [if_neg hfull, take_range (Nat.not_lt.mp hd)]
      exact .field (Nat.not_lt.mp hd)

theorem decode_eq_iff : decode w b offset stop = r ↔ Reads w b offset stop r := by
  refine ⟨?_, fun h => (reads_decode w b offset stop).unique h⟩
  rintro rfl
  exact reads_decode w b offset stop

namespace Machine

variable {stop : UInt64} {m n : Nat}

theorem add_eq (h : m + n < 2 ^ 64) : add (.ofNat m) (.ofNat n) = .ok (.ofNat (m + n)) := by
  have hm : (UInt64.ofNat m).toNat = m :=
    UInt64.toNat_ofNat_of_lt' (Nat.lt_of_le_of_lt (Nat.le_add_right m n) h)
  have hn : (UInt64.ofNat n).toNat = n :=
    UInt64.toNat_ofNat_of_lt' (Nat.lt_of_le_of_lt (Nat.le_add_left n m) h)
  rw [add, hm, hn, if_pos h, UInt64.ofNat_add]

/-- Up to eight bytes make a word. -/
theorem ofBigEndian_lt_word (h : b.length ≤ 8) : ofBigEndian b < 2 ^ 64 := by
  have hlt := ofBigEndian_lt b
  have hpow : 256 ^ b.length ≤ 256 ^ 8 := Nat.pow_le_pow_right (by omega) h
  omega

theorem toNat_gap (m n : UInt64) : (if m ≤ n then n - m else 0).toNat = n.toNat - m.toNat := by
  by_cases h : m ≤ n
  · rw [if_pos h, UInt64.toNat_sub_of_le _ _ h]
  · have hlt : n.toNat < m.toNat := UInt64.lt_iff_toNat_lt.mp (UInt64.not_le.mp h)
    rw [if_neg h, Nat.sub_eq_zero_of_le (Nat.le_of_lt hlt)]
    rfl

section

variable (hb : b.length < 2 ^ 64)
include hb

theorem toNat_position (h : n ≤ b.length) : (UInt64.ofNat n).toNat = n :=
  UInt64.toNat_ofNat_of_lt' (Nat.lt_of_le_of_lt h hb)

theorem position_le (hmn : m ≤ n) (hn : n ≤ b.length) : UInt64.ofNat m ≤ UInt64.ofNat n := by
  rw [UInt64.le_iff_toNat_le, toNat_position hb (Nat.le_trans hmn hn), toNat_position hb hn]
  exact hmn

theorem slice_eq (hmn : m ≤ n) (hn : n ≤ b.length) :
    slice b (.ofNat m) (.ofNat n) = .ok ((b.drop m).take (n - m)) := by
  have hle := position_le hb hmn hn
  have hm := toNat_position hb (Nat.le_trans hmn hn)
  have hend := toNat_position hb hn
  rw [slice, if_pos ⟨hle, by rw [hend]; exact hn⟩, hm, hend, List.extract_eq_take_drop]

theorem slice_eq_range (hmn : m ≤ n) (hn : n ≤ b.length) :
    slice b (.ofNat m) (.ofNat n) = .ok (range b m n) := by
  rw [slice_eq hb hmn hn, range, List.drop_take]

theorem clip_eq (stop : UInt64) :
    (if stop ≤ .ofNat b.length then stop else .ofNat b.length) =
      UInt64.ofNat (min stop.toNat b.length) := by
  have hlength := toNat_position hb (Nat.le_refl b.length)
  by_cases h : stop ≤ .ofNat b.length
  · have hle : stop.toNat ≤ b.length := hlength ▸ UInt64.le_iff_toNat_le.mp h
    rw [if_pos h, Nat.min_eq_left hle, UInt64.ofNat_toNat]
  · have hlt : b.length < stop.toNat := by
      rw [UInt64.not_le, UInt64.lt_iff_toNat_lt, hlength] at h
      exact h
    rw [if_neg h, Nat.min_eq_right (Nat.le_of_lt hlt)]

theorem sub_eq (hmn : m ≤ n) (hn : n ≤ b.length) :
    sub (.ofNat n) (.ofNat m) = .ok (.ofNat (n - m)) := by
  have hle := position_le hb hmn hn
  have hgap : UInt64.ofNat n - .ofNat m = .ofNat (n - m) := by
    rw [← UInt64.toNat_inj, UInt64.toNat_sub_of_le _ _ hle, toNat_position hb hn,
      toNat_position hb (Nat.le_trans hmn hn), toNat_position hb (Nat.le_trans (Nat.sub_le n m) hn)]
  rw [sub, if_pos hle, hgap]

/-- The bytes that remain are compared with the size of a header. -/
theorem remaining_lt_iff (w : HeaderWidth) (ho : offset < 2 ^ 64) (hn : n ≤ b.length) :
    (if UInt64.ofNat offset ≤ .ofNat n then UInt64.ofNat n - .ofNat offset else 0) < .ofNat w.size ↔
      n < offset + w.size := by
  have hgap := toNat_gap (.ofNat offset) (.ofNat n)
  have hoffset : (UInt64.ofNat offset).toNat = offset := UInt64.toNat_ofNat_of_lt' ho
  have hsize : (UInt64.ofNat w.size).toNat = w.size := by cases w <;> rfl
  have hw := w.size_pos
  rw [UInt64.lt_iff_toNat_lt, hgap, hoffset, hsize, toNat_position hb hn]
  omega

theorem exists_decode_of_truncated (ho : offset < 2 ^ 64)
    (hh : min stop.toNat b.length < offset + w.size) :
    ∃ r, decode w b (.ofNat offset) stop = .ok r ∧ Reads w b offset stop.toNat r := by
  have hlimit : min stop.toNat b.length ≤ b.length := Nat.min_le_right ..
  have hgap := toNat_gap (.ofNat offset) (.ofNat (min stop.toNat b.length))
  have hoffset : (UInt64.ofNat offset).toNat = offset := UInt64.toNat_ofNat_of_lt' ho
  have hsize : (UInt64.ofNat w.size).toNat = w.size := by cases w <;> rfl
  rw [hoffset, toNat_position hb hlimit] at hgap
  unfold decode
  dsimp only
  rw [clip_eq hb, if_pos ((remaining_lt_iff hb w ho hlimit).mpr hh), hgap, hoffset, hsize]
  exact ⟨_, rfl, .truncated hh⟩

/-- Every sum and every slice comes after the comparison that keeps it within the range. -/
theorem exists_decode_of_header (hh : offset + w.size ≤ min stop.toNat b.length) :
    ∃ r, decode w b (.ofNat offset) stop = .ok r ∧ Reads w b offset stop.toNat r := by
  have hlimit : min stop.toNat b.length ≤ b.length := Nat.min_le_right ..
  have hoffset : (UInt64.ofNat offset).toNat = offset := toNat_position hb (by omega)
  have hsize : w.size ≤ 10 := by cases w <;> decide
  have hdeclared : word ((range b offset (offset + w.size)).drop 2) =
      .ofNat (declaredAt w b offset) := by
    rw [drop_range]
    rfl
  have hfits : (UInt64.ofNat (declaredAt w b offset)).toNat = declaredAt w b offset := by
    refine UInt64.toNat_ofNat_of_lt' (ofBigEndian_lt_word ?_)
    rw [length_range_eq]
    omega
  have htag : (range b offset (offset + w.size)).take 2 = range b offset (offset + 2) :=
    take_range (by rw [HeaderWidth.size] at hh ⊢; omega)
  have hlt : offset < 2 ^ 64 := by omega
  have hfull := mt (remaining_lt_iff hb w hlt hlimit).mp (Nat.not_lt.mpr hh)
  unfold decode
  dsimp only
  rw [clip_eq hb, if_neg hfull, add_eq (by omega), ok_bind, slice_eq_range hb (by omega) (by omega),
    ok_bind, sub_eq hb hh hlimit, ok_bind, hdeclared, htag, hoffset]
  have havailable : (UInt64.ofNat (min stop.toNat b.length - (offset + w.size))).toNat =
      min stop.toNat b.length - (offset + w.size) := toNat_position hb (by omega)
  by_cases hd : min stop.toNat b.length < offset + w.size + declaredAt w b offset
  · have hover : UInt64.ofNat (min stop.toNat b.length - (offset + w.size)) <
        .ofNat (declaredAt w b offset) := by
      rw [UInt64.lt_iff_toNat_lt, havailable, hfits]
      omega
    rw [if_pos hover, hfits, havailable]
    exact ⟨_, rfl, .overlong hh hd⟩
  · have hwithin : ¬ UInt64.ofNat (min stop.toNat b.length - (offset + w.size)) <
        .ofNat (declaredAt w b offset) := by
      rw [UInt64.lt_iff_toNat_lt, havailable, hfits]
      omega
    have hend : (UInt64.ofNat (offset + w.size + declaredAt w b offset)).toNat =
        offset + w.size + declaredAt w b offset := toNat_position hb (by omega)
    rw [if_neg hwithin, add_eq (by omega), ok_bind, slice_eq_range hb (by omega) (by omega), ok_bind,
      hend]
    exact ⟨_, rfl, .field (Nat.not_lt.mp hd)⟩

/-- The machine reads what is read over unbounded numbers. -/
theorem decode_eq (w : HeaderWidth) (offset stop : UInt64) :
    decode w b offset stop = .ok (Field.decode w b offset.toNat stop.toNat) := by
  have hreads : ∃ r, decode w b (.ofNat offset.toNat) stop = .ok r ∧
      Reads w b offset.toNat stop.toNat r := by
    by_cases hh : min stop.toNat b.length < offset.toNat + w.size
    · exact exists_decode_of_truncated hb offset.toNat_lt hh
    · exact exists_decode_of_header hb (Nat.not_lt.mp hh)
  obtain ⟨r, hr, h⟩ := hreads
  rw [UInt64.ofNat_toNat] at hr
  rw [hr, decode_eq_iff.mpr h]

end

end Machine

end SignedLedger.Field
