import Mathlib.Data.List.Chain
import SignedLedger.Proofs.FieldMachine
import SignedLedger.Proofs.FieldReading

/-! Going through the fields of any bytes. Each item is read where the field before it ends, and so
the fields lie side by side in the range until it is used up or no field can be read. Every field
takes up the bytes of a header at least, which bounds the number of items. A machine with words of 64
bits yields the same items one after the other, and nothing after them. -/

namespace SignedLedger.Field

/-- The items that are read from an offset on, one where the other ends. -/
inductive Walks (w : HeaderWidth) (b : Bytes) (stop : Nat) :
    Nat → List (Except CodecError Field) → Prop
  | done {offset : Nat} (ho : min stop b.length ≤ offset) : Walks w b stop offset []
  | failed {offset : Nat} {e : CodecError} (ho : offset < min stop b.length)
    (he : decode w b offset stop = .error e) : Walks w b stop offset [.error e]
  | field {offset : Nat} {f : Field} {items : List (Except CodecError Field)}
    (ho : offset < min stop b.length) (hf : decode w b offset stop = .ok f)
    (hi : Walks w b stop f.stop items) : Walks w b stop offset (.ok f :: items)

/-- Where the last of the fields ends, or else where they would have started. -/
def endOf : Nat → List Field → Nat
  | start, [] => start
  | _, f :: found => endOf f.stop found

/-- That the fields follow one another from `start` on without a gap, each of them as it is read at
its place, and that an error ends them exactly where what is left of the range is no field. -/
structure Laid (w : HeaderWidth) (b : Bytes) (start stop : Nat) (found : List Field)
    (ended : Option CodecError) : Prop where
  first : ∀ f ∈ found.head?, f.offset = start
  adjacent : found.IsChain fun f g => g.offset = f.stop
  increasing : found.Pairwise fun f g => f.stop ≤ g.offset
  within : ∀ f ∈ found, start ≤ f.offset ∧ f.offset + w.size ≤ f.stop ∧ f.stop ≤ min stop b.length
  read : ∀ f ∈ found, decode w b f.offset stop = .ok f
  complete : ended = none → min stop b.length ≤ endOf start found
  failed : ∀ e ∈ ended, endOf start found < min stop b.length ∧
    decode w b (endOf start found) stop = .error e

variable {w : HeaderWidth} {b bytes rest : Bytes} {offset start stop : Nat} {f : Field}
variable {items : List (Except CodecError Field)} {found : List Field} {ended : Option CodecError}

theorem range_eq_nil_iff : range b start stop = [] ↔ min stop b.length ≤ start := by
  rw [← List.length_eq_zero_iff, length_range_eq]
  omega

theorem bounds_of_decode (h : decode w b offset stop = .ok f) :
    f.offset = offset ∧ offset + w.size ≤ f.stop ∧ f.stop ≤ min stop b.length := by
  cases decode_eq_iff.mp h with
  | field hd => exact ⟨rfl, Nat.le_add_right _ _, hd⟩

/-- What a field leaves of a range is the range from its end on. -/
theorem rest_eq_range (h : takeFirst w offset (range b offset stop) = .ok (f, rest)) :
    rest = range b f.stop stop := by
  obtain ⟨_, hbytes, _, hstop⟩ := takeFirst_eq_ok_iff.mp h
  have hdrop := drop_range b offset stop (layout w f.tag f.value).length
  rw [hbytes, List.drop_left, length_layout, ← Nat.add_assoc, ← hstop] at hdrop
  exact hdrop

theorem walks_scan (w : HeaderWidth) (b : Bytes) (start stop : Nat) :
    Walks w b stop start (scan w b start stop) := by
  unfold scan
  -- Along the scan, the bytes that are left stay the range from the offset on.
  generalize hbytes : range b start stop = bytes
  fun_induction scanFrom w start bytes with
  | case1 => exact .done (range_eq_nil_iff.mp hbytes)
  | case2 offset bytes hne e hread =>
    have ho : offset < min stop b.length := by
      rw [← Nat.not_le, ← range_eq_nil_iff, hbytes]
      exact hne
    exact .failed ho (by rw [decode, hbytes, hread]; rfl)
  | case3 offset bytes hne f rest hread ih =>
    have ho : offset < min stop b.length := by
      rw [← Nat.not_le, ← range_eq_nil_iff, hbytes]
      exact hne
    refine .field ho (by rw [decode, hbytes, hread]; rfl) (ih ?_)
    exact (rest_eq_range (hbytes ▸ hread)).symm

theorem laid_nil (hc : ended = none → min stop b.length ≤ start)
    (hf : ∀ e ∈ ended, start < min stop b.length ∧ decode w b start stop = .error e) :
    Laid w b start stop [] ended where
  first := by simp
  adjacent := .nil
  increasing := .nil
  within := by simp
  read := by simp
  complete := hc
  failed := hf

/-- A field goes in front of those that lie behind its end. -/
theorem Laid.cons (hf : decode w b start stop = .ok f) (hl : Laid w b f.stop stop found ended) :
    Laid w b start stop (f :: found) ended := by
  obtain ⟨hoffset, hsize, hstop⟩ := bounds_of_decode hf
  refine ⟨?_, ?_, ?_, ?_, ?_, hl.complete, hl.failed⟩
  · rintro _ ⟨⟩
    exact hoffset
  · rw [List.isChain_cons]
    exact ⟨hl.first, hl.adjacent⟩
  · exact List.pairwise_cons.mpr ⟨fun g hg => (hl.within g hg).1, hl.increasing⟩
  · refine List.forall_mem_cons.mpr ⟨⟨by omega, by omega, hstop⟩, fun g hg => ?_⟩
    have hg := hl.within g hg
    omega
  · exact List.forall_mem_cons.mpr ⟨hoffset ▸ hf, hl.read⟩

theorem Walks.exists_laid (h : Walks w b stop start items) :
    ∃ found ended, items = found.map .ok ++ ended.toList.map .error ∧
      Laid w b start stop found ended := by
  induction h with
  | done ho => exact ⟨[], none, rfl, laid_nil (fun _ => ho) (by simp)⟩
  | @failed _ e ho he =>
    refine ⟨[], some e, rfl, laid_nil (by simp) ?_⟩
    rintro _ ⟨⟩
    exact ⟨ho, he⟩
  | @field _ f _ _ hf _ ih =>
    obtain ⟨found, ended, rfl, hl⟩ := ih
    exact ⟨f :: found, ended, rfl, hl.cons hf⟩

/-- Every item but the last takes up the bytes of a header. -/
theorem Walks.length_le (h : Walks w b stop start items) :
    items.length ≤ (min stop b.length - start) / w.size + 1 := by
  induction h with
  | done ho => exact Nat.zero_le _
  | failed ho he => exact Nat.le_add_left 1 _
  | @field offset f items ho hf _ ih =>
    obtain ⟨_, hsize, hstop⟩ := bounds_of_decode hf
    have hle : min stop b.length - f.stop + w.size ≤ min stop b.length - offset := by omega
    have hdiv := Nat.div_le_div_right (c := w.size) hle
    rw [Nat.add_div_right _ w.size_pos] at hdiv
    rw [List.length_cons]
    omega

/-- Only the bytes matter where they end before the range does. -/
theorem scan_min (w : HeaderWidth) (b : Bytes) (start stop : Nat) :
    scan w b start (min stop b.length) = scan w b start stop := by
  have htake : b.take (min stop b.length) = b.take stop := by
    rw [← List.take_take, List.take_length]
  rw [scan, scan, range, range, htake]

namespace Machine

variable {i : Iteration}

/-- That the items of `i` which are still to come are `items`. -/
inductive Pending (i : Iteration) : List (Except CodecError Field) → Prop
  | ended (hf : i.failed = true) : Pending i []
  | going {items : List (Except CodecError Field)} (hf : i.failed = false)
    (hb : i.buffer.length < 2 ^ 64) (hs : i.stop.toNat ≤ i.buffer.length)
    (hi : Walks i.width i.buffer i.stop.toNat i.offset.toNat items) : Pending i items

theorem pending_start (hb : b.length < 2 ^ 64) (w : HeaderWidth) (offset stop : UInt64) :
    Pending (.start w b offset stop) (scan w b offset.toNat stop.toNat) := by
  have hlimit : min stop.toNat b.length ≤ b.length := Nat.min_le_right ..
  have hstop : (Iteration.start w b offset stop).stop.toNat = min stop.toNat b.length := by
    rw [Iteration.start, clip_eq hb, toNat_position hb hlimit]
  refine .going rfl hb (hstop ▸ hlimit) ?_
  rw [hstop, ← scan_min]
  exact walks_scan w b offset.toNat (min stop.toNat b.length)

/-- Asking once yields the first item that is still to come, if there is one. -/
theorem Pending.next (h : Pending i items) :
    ∃ j, i.next = .ok (items.head?, j) ∧ Pending j items.tail := by
  cases h with
  | ended hf =>
    refine ⟨i, ?_, .ended hf⟩
    simp [Iteration.next, hf]
  | going hf hb hs hi =>
    have hread := decode_eq hb i.width i.offset i.stop
    have hlimit : min i.stop.toNat i.buffer.length = i.stop.toNat := Nat.min_eq_left hs
    cases hi with
    | done ho =>
      have hle : i.stop ≤ i.offset := UInt64.le_iff_toNat_le.mpr (hlimit ▸ ho)
      refine ⟨i, ?_, .going hf hb hs (.done ho)⟩
      simp [Iteration.next, hle]
    | failed ho he =>
      have hlt : ¬ i.stop ≤ i.offset := by
        rw [UInt64.le_iff_toNat_le, ← hlimit]
        exact Nat.not_le.mpr ho
      refine ⟨{ i with failed := true }, ?_, .ended rfl⟩
      simp [Iteration.next, hf, hlt, hread, he]
    | @field _ f items ho hfield hi =>
      have hlt : ¬ i.stop ≤ i.offset := by
        rw [UInt64.le_iff_toNat_le, ← hlimit]
        exact Nat.not_le.mpr ho
      have hend : (UInt64.ofNat f.stop).toNat = f.stop := by
        have hstop := (bounds_of_decode hfield).2.2
        exact toNat_position hb (by omega)
      refine ⟨{ i with offset := .ofNat f.stop }, ?_, .going hf hb hs (hend.symm ▸ hi)⟩
      simp [Iteration.next, hf, hlt, hread, hfield]

/-- Asking time and again yields the items in order, and nothing after the last. -/
theorem Pending.calls (h : Pending i items) (n : Nat) :
    i.calls n = .ok ((List.range n).map fun k => items[k]?) := by
  induction n generalizing i items with
  | zero => rfl
  | succ n ih =>
    obtain ⟨j, hnext, hj⟩ := h.next
    rw [Iteration.calls, hnext, ok_bind]
    dsimp only
    rw [ih hj, List.range_succ_eq_map, List.map_cons, List.map_map, ← List.head?_eq_getElem?]
    simp [Function.comp_def]

/-- That no fault comes from reading in a range or going through it, and what comes of both. -/
structure Withstands (w : HeaderWidth) (b : Bytes) (start stop : UInt64) : Prop where
  decoded : decode w b start stop = .ok (Field.decode w b start.toNat stop.toNat)
  decode_iff : ∀ r, Field.decode w b start.toNat stop.toNat = r ↔
    Reads w b start.toNat stop.toNat r
  yielded : ∀ n, (Iteration.start w b start stop).calls n =
    .ok ((List.range n).map fun k => (scan w b start.toNat stop.toNat)[k]?)
  laid : ∃ found ended,
    scan w b start.toNat stop.toNat = found.map .ok ++ ended.toList.map .error ∧
      Laid w b start.toNat stop.toNat found ended
  length_le : (scan w b start.toNat stop.toNat).length ≤
    (min stop.toNat b.length - start.toNat) / w.size + 1

/-- Bytes are read safely whatever they hold, wherever reading starts, and wherever it is to stop. -/
theorem withstands (hb : b.length < 2 ^ 64) (w : HeaderWidth) (start stop : UInt64) :
    Withstands w b start stop where
  decoded := decode_eq hb w start stop
  decode_iff := fun _ => decode_eq_iff
  yielded := (pending_start hb w start stop).calls
  laid := (walks_scan w b start.toNat stop.toNat).exists_laid
  length_le := (walks_scan w b start.toNat stop.toNat).length_le

end Machine

end SignedLedger.Field

/-! A field, and the header of another that declares as many bytes as a word can tell. -/

namespace SignedLedger.Sample

def boastful : Bytes :=
  Field.layout .long .version [7] ++ Tag.bytes .timestamp ++ List.replicate 8 255 ++ [9]

end SignedLedger.Sample

namespace SignedLedger.Field.Machine

theorem withstands_boastful :
    Sample.boastful.length < 2 ^ 64 ∧
    (∀ w start stop, Withstands w Sample.boastful start stop) ∧
    (Iteration.start .long Sample.boastful 0 0xffffffffffffffff).calls 4 =
      .ok [some (.ok ⟨.version, [7], 0, 11⟩), some (.error (.lengthOverflow 11 (2 ^ 64 - 1) 1)),
        none, none] :=
  ⟨by decide, withstands (by decide), by decide +kernel⟩

end SignedLedger.Field.Machine
