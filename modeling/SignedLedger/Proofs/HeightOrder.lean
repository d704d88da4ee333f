import Mathlib.Data.List.Forall2
import SignedLedger.Proofs.ImmediateWrites
import SignedLedger.Proofs.StoredHistory

/-! Scans of the height index. Keys of one width stand in the order of the numbers that they write, so
a scan goes through the blocks from one height to another. -/

namespace SignedLedger

theorem Bytes.append_singleton_lt_iff {a b : Bytes} {x y : UInt8} (h : a.length = b.length) :
    a ++ [x] < b ++ [y] ↔ a < b ∨ a = b ∧ x < y := by
  induction a generalizing b with
  | nil =>
    have hb : b = [] := List.length_eq_zero_iff.mp h.symm
    simp [hb, List.cons_lt_cons_iff]
  | cons c a ih =>
    cases b with
    | nil => simp at h
    | cons d b =>
      have hrest : a.length = b.length := by simpa using h
      rw [List.cons_append, List.cons_append, List.cons_lt_cons_iff, List.cons_lt_cons_iff, ih hrest,
        List.cons.injEq]
      tauto

/-- The first byte in which two numbers differ is the most significant one. -/
theorem bigEndian_lt_iff {width m n : Nat} (hm : m < 256 ^ width) (hn : n < 256 ^ width) :
    bigEndian width m < bigEndian width n ↔ m < n := by
  induction width generalizing m n with
  | zero =>
    have hm0 : m < 1 := hm
    have hn0 : n < 1 := hn
    have hlt : ¬ m < n := by omega
    simp [bigEndian, hlt]
  | succ width ih =>
    rw [Nat.pow_succ] at hm hn
    have hm' : m / 256 < 256 ^ width := by omega
    have hn' : n / 256 < 256 ^ width := by omega
    have hlast : UInt8.ofNat m < UInt8.ofNat n ↔ m % 256 < n % 256 := by
      rw [UInt8.lt_iff_toNat_lt, UInt8.toNat_ofNat', UInt8.toNat_ofNat']
    rw [bigEndian, bigEndian, Bytes.append_singleton_lt_iff (by simp), ih hm' hn',
      bigEndian_inj hm' hn', hlast]
    omega

theorem heightKey_lt_iff {m n : UInt64} : heightKey m < heightKey n ↔ m < n := by
  have hm : m.toNat < 256 ^ 8 := m.toNat_lt
  have hn : n.toNat < 256 ^ 8 := n.toNat_lt
  rw [heightKey, heightKey, bigEndian_lt_iff hm hn, UInt64.lt_iff_toNat_lt]

theorem heightKey_le_iff {m n : UInt64} : heightKey m ≤ heightKey n ↔ m ≤ n := by
  rw [← List.not_lt, heightKey_lt_iff, UInt64.not_lt]

variable {t : Tables} {signer : BlockSigner} {h : BlockHistory} {e last : HistoryEntry}
variable {first n : UInt64} {stop : Option UInt64}

namespace HistoryEntry

def height (e : HistoryEntry) : UInt64 :=
  e.block.height

/-- What the height index holds for a block. -/
def indexed (e : HistoryEntry) : Bytes × Bytes :=
  (heightKey e.height, e.id.bytes)

end HistoryEntry

namespace BlockHistory

open HistoryEntry

theorem Valid.increasing (hv : h.Valid signer) : h.Pairwise fun e f => e.height < f.height := by
  rw [List.pairwise_iff_getElem]
  intro i j hi hj hij
  have hei : h[i].height.toNat = i := hv.height (List.getElem?_eq_getElem hi)
  have hej : h[j].height.toNat = j := hv.height (List.getElem?_eq_getElem hj)
  rw [UInt64.lt_iff_toNat_lt]
  omega

/-- There is a block at every height up to that of the last one, and at no other. -/
theorem Valid.exists_height_iff (hv : h.Valid signer) (hlast : h.getLast? = some last) :
    (∃ e ∈ h, e.height = n) ↔ n ≤ last.height := by
  have hend : h[h.length - 1]? = some last := by rw [← List.getLast?_eq_getElem?, hlast]
  have htop : last.height.toNat = h.length - 1 := hv.height hend
  have hpos : 0 < h.length := List.length_pos_of_mem (List.mem_of_getLast? hlast)
  rw [UInt64.le_iff_toNat_le, htop]
  constructor
  · rintro ⟨e, he, rfl⟩
    obtain ⟨i, hi, rfl⟩ := List.mem_iff_getElem.mp he
    have hei : h[i].height.toNat = i := hv.height (List.getElem?_eq_getElem hi)
    omega
  · intro hn
    have hlt : n.toNat < h.length := by omega
    have he : h[n.toNat].height.toNat = n.toNat := hv.height (List.getElem?_eq_getElem hlt)
    exact ⟨h[n.toNat], List.getElem_mem hlt, UInt64.toNat_inj.mp he⟩

/-- The blocks from one height on and before another. -/
def between (h : BlockHistory) (first : UInt64) (stop : Option UInt64) : BlockHistory :=
  h.filter fun e => first ≤ e.height && stop.all fun s => e.height < s

theorem mem_between : e ∈ h.between first stop ↔
    e ∈ h ∧ first ≤ e.height ∧ ∀ s ∈ stop, e.height < s := by
  cases stop <;> simp [between]

end BlockHistory

namespace Tables

/-- That an entry of the height index is the one of a height, and decodes to the identifier of the block
that is found there. -/
def LeadsTo (t : Tables) (entry : Bytes × Bytes) (n : UInt64) : Prop :=
  entry.1 = heightKey n ∧ ∃ b, t.blockAt? n = .ok (some b) ∧ decodeBlockId entry.2 = .ok b.id

/-- That what is found from one height on and before another are the blocks of the heights `found`:
of all heights in between up to that of the head, in their order. Every engine answers so. -/
structure Scans (t : Tables) (first : UInt64) (stop : Option UInt64) (found : List UInt64) : Prop where
  increasing : found.Pairwise fun m n => m < n
  mem_iff : ∀ n, n ∈ found ↔ first ≤ n ∧ (∃ head, t.head? = .ok (some head) ∧ n ≤ head.height) ∧
    ∀ s ∈ stop, n < s
  leads : List.Forall₂ t.LeadsTo (t.range .heights (heightKey first) (stop.map heightKey)) found
  replies : ∀ medium outcome,
    ((Engine.mk medium t).write [.range .heights (heightKey first) (stop.map heightKey)] outcome).1 =
      [.entries (t.range .heights (heightKey first) (stop.map heightKey))]

theorem LeadsTo.keys {entries : List (Bytes × Bytes)} {found : List UInt64}
    (h : List.Forall₂ t.LeadsTo entries found) : entries.map Prod.fst = found.map heightKey := by
  induction h with
  | nil => rfl
  | cons hentry _ ih => rw [List.map_cons, List.map_cons, hentry.1, ih]

theorem Scans.found_eq {found heights : List UInt64} (h : t.Scans first stop found)
    (hkeys : (t.range .heights (heightKey first) (stop.map heightKey)).map Prod.fst =
      heights.map heightKey) : found = heights := by
  have hinjective : Function.Injective heightKey := fun _ _ heq => heightKey_inj.mp heq
  exact List.map_injective_iff.mpr hinjective ((LeadsTo.keys h.leads).symm.trans hkeys)

namespace ListsBlocks

open BlockHistory HistoryEntry

theorem get?_heights_iff_mem (ht : t.ListsBlocks signer h) {key value : Bytes} :
    t.get? .heights key = some value ↔ ∃ e ∈ h, e.indexed = (key, value) := by
  rw [ht.get?_heights_iff]
  constructor
  · rintro ⟨n, e, he, rfl, rfl⟩
    have hn : e.height.toNat = n := ht.valid.height he
    refine ⟨e, List.mem_of_getElem? he, ?_⟩
    rw [indexed, ← hn, UInt64.ofNat_toNat]
    rfl
  · rintro ⟨e, he, heq⟩
    obtain ⟨n, hn⟩ := List.mem_iff_getElem?.mp he
    have hheight : e.height.toNat = n := ht.valid.height hn
    obtain ⟨rfl, rfl⟩ := Prod.mk.inj heq
    exact ⟨n, e, hn, by rw [← hheight, UInt64.ofNat_toNat], rfl⟩

/-- The entries in between are those of the blocks in between. -/
theorem lists_between (ht : t.ListsBlocks signer h) (first : UInt64) (stop : Option UInt64) :
    Contents.Lists t.get? .heights (heightKey first) (stop.map heightKey)
      ((h.between first stop).map indexed) where
  increasing := by
    rw [List.pairwise_map]
    apply List.Pairwise.imp _ (ht.valid.increasing.filter _)
    intro e f hef
    exact heightKey_lt_iff.mpr hef
  mem_iff := by
    intro key value
    have hbounds : ∀ n : UInt64, (first ≤ n ∧ ∀ s ∈ stop, n < s) ↔
        heightKey first ≤ heightKey n ∧ ∀ s ∈ stop.map heightKey, heightKey n < s := by
      intro n
      cases stop with
      | none => simp [heightKey_le_iff]
      | some s => simp [heightKey_le_iff, heightKey_lt_iff]
    rw [ht.get?_heights_iff_mem, List.mem_map]
    constructor
    · rintro ⟨e, he, heq⟩
      obtain ⟨hmem, hin⟩ := mem_between.mp he
      obtain ⟨rfl, rfl⟩ := Prod.mk.inj heq
      exact ⟨⟨e, hmem, rfl⟩, (hbounds e.height).mp hin⟩
    · rintro ⟨⟨e, hmem, heq⟩, hin⟩
      obtain ⟨rfl, rfl⟩ := Prod.mk.inj heq
      exact ⟨e, mem_between.mpr ⟨hmem, (hbounds e.height).mpr hin⟩, rfl⟩

theorem range_heights (ht : t.ListsBlocks signer h) (first : UInt64) (stop : Option UInt64) :
    t.range .heights (heightKey first) (stop.map heightKey) = (h.between first stop).map indexed :=
  (t.lists_range .heights (heightKey first) (stop.map heightKey)).unique
    (ht.lists_between first stop)

theorem leadsTo (ht : t.ListsBlocks signer h) (he : e ∈ h) : t.LeadsTo e.indexed e.height := by
  obtain ⟨n, hn⟩ := List.mem_iff_getElem?.mp he
  have hheight : e.height.toNat = n := ht.valid.height hn
  have hblock : t.blockAt? e.height = .ok (some e.block) := by
    rw [ht.blockAt?, hheight, hn]
    rfl
  exact ⟨rfl, e.block, hblock, decodeBlockId_bytes e.id⟩

theorem exists_head_iff (ht : t.ListsBlocks signer h) :
    (∃ head, t.head? = .ok (some head) ∧ n ≤ head.height) ↔ ∃ e ∈ h, e.height = n := by
  rw [ht.head?]
  cases hlast : h.getLast? with
  | none =>
    have hnil : h = [] := List.getLast?_eq_none_iff.mp hlast
    simp [hnil]
  | some last =>
    rw [ht.valid.exists_height_iff hlast]
    simp [HistoryEntry.height]

theorem scans (ht : t.ListsBlocks signer h) (first : UInt64) (stop : Option UInt64) :
    t.Scans first stop ((h.between first stop).map HistoryEntry.height) where
  increasing := by
    rw [List.pairwise_map]
    exact ht.valid.increasing.filter _
  mem_iff := by
    intro n
    rw [ht.exists_head_iff, List.mem_map]
    constructor
    · rintro ⟨e, he, rfl⟩
      obtain ⟨hmem, hfirst, hstop⟩ := mem_between.mp he
      exact ⟨hfirst, ⟨e, hmem, rfl⟩, hstop⟩
    · rintro ⟨hfirst, ⟨e, hmem, rfl⟩, hstop⟩
      exact ⟨e, mem_between.mpr ⟨hmem, hfirst, hstop⟩, rfl⟩
  leads := by
    rw [ht.range_heights, List.forall₂_map_left_iff, List.forall₂_map_right_iff, List.forall₂_same]
    intro e he
    exact ht.leadsTo (mem_between.mp he).1
  replies := fun medium outcome => Engine.write_replies _ _ outcome

end ListsBlocks

end Tables

namespace Store

variable {s : Store}

/-- However a store was filled, its height index is scanned in the order of the heights. -/
theorem Reachable.scans_heights (hs : s.Reachable) (first : UInt64) (stop : Option UInt64) :
    ∃ found, s.tables.Scans first stop found := by
  obtain ⟨h, hh⟩ := hs.exists_history
  exact ⟨_, hh.scans first stop⟩

theorem scans_heights_sample : Sample.store.Reachable ∧
    (∃ found, Sample.store.tables.Scans 0 none found ∧ found = [0, 1, 2]) ∧
    ∃ found, Sample.store.tables.Scans 0 (some 2) found ∧ found = [0, 1] := by
  have hall : (Sample.store.tables.range .heights (heightKey 0) none).map Prod.fst =
      [0, 1, 2].map heightKey := by decide +kernel
  have hbelow : (Sample.store.tables.range .heights (heightKey 0) (some (heightKey 2))).map Prod.fst =
      [0, 1].map heightKey := by decide +kernel
  obtain ⟨found, hfound⟩ := Sample.reachable.scans_heights 0 none
  obtain ⟨below, hscan⟩ := Sample.reachable.scans_heights 0 (some 2)
  exact ⟨Sample.reachable, ⟨found, hfound, hfound.found_eq hall⟩, below, hscan, hscan.found_eq hbelow⟩

end Store

end SignedLedger
