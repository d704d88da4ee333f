import SignedLedger.Proofs.BlockHistory

/-! The block tables as a picture of the history. The record of a block, the height index and the
head all repeat it, and every operation that succeeds leaves them in agreement with one history. -/

namespace SignedLedger

theorem exists_heightKey_eq {key : Bytes} (h : key.length = 8) :
    ∃ n : UInt64, key = heightKey n := by
  have hb := h ▸ bigEndian_ofBigEndian key
  have hlt := h ▸ ofBigEndian_lt key
  exact ⟨.ofNat (ofBigEndian key), by rw [heightKey, UInt64.toNat_ofNat_of_lt' hlt, hb]⟩

namespace Tables

open BlockHistory

@[simp] theorem get?_putBlock (t : Tables) (b : Block) (table : Table) (key : Bytes) :
    (t.putBlock b).get? table key =
      if table = .blocks ∧ key = b.id.bytes then some b.encode else t.get? table key :=
  get?_put ..

@[simp] theorem get?_putHeight (t : Tables) (n : UInt64) (id : BlockId) (table : Table)
    (key : Bytes) :
    (t.putHeight n id).get? table key =
      if table = .heights ∧ key = heightKey n then some id.bytes else t.get? table key :=
  get?_put ..

@[simp] theorem get?_putHead (t : Tables) (b : Block) (table : Table) (key : Bytes) :
    (t.putHead b).get? table key =
      if table = .head ∧ key = headKey then some b.encode else t.get? table key :=
  get?_put ..

/-- The entries of the three block tables are those of the blocks of the history. -/
structure ListsBlocks (s : BlockSigner) (t : Tables) (h : BlockHistory) : Prop where
  valid : h.Valid s
  blocks : ∀ id : BlockId, t.get? .blocks id.bytes = (h.block? id).map Block.encode
  heights : ∀ n : UInt64,
    t.get? .heights (heightKey n) = (h.map HistoryEntry.id)[n.toNat]?.map Identifier.bytes
  head : t.get? .head headKey = h.getLast?.map fun e => e.block.encode
  blockKeys : ∀ key, key.length ≠ 16 → t.get? .blocks key = none
  heightKeys : ∀ key, key.length ≠ 8 → t.get? .heights key = none
  headKeys : ∀ key, key ≠ headKey → t.get? .head key = none

/-- All tables are those of the history. -/
structure Holds (s : BlockSigner) (t : Tables) (h : BlockHistory) : Prop
    extends ListsBlocks s t h where
  indexes : t.Indexes h.log

variable {s : BlockSigner} {t u : Tables} {h init : BlockHistory} {e last : HistoryEntry}
variable {now : UInt64} {fresh : BlockId} {pending : List Certificate} {b previous : Block}
variable {key value : Bytes}

theorem holds_empty : Holds s .empty [] where
  valid := valid_nil
  blocks := fun _ => get?_empty ..
  heights := fun _ => get?_empty ..
  head := get?_empty ..
  blockKeys := fun _ _ => get?_empty ..
  heightKeys := fun _ _ => get?_empty ..
  headKeys := fun _ _ => get?_empty ..
  indexes := indexes_empty

namespace ListsBlocks

theorem block? (ht : t.ListsBlocks s h) (id : BlockId) : t.block? id = .ok (h.block? id) := by
  rw [Tables.block?, load?, ht.blocks]
  cases hb : h.block? id with
  | none => rfl
  | some b =>
    obtain ⟨e, he, _, rfl⟩ := exists_of_block? hb
    simp [ht.valid.decode_encode he]

theorem block?_of_mem (ht : t.ListsBlocks s h) (he : e ∈ h) :
    t.block? e.id = .ok (some e.block) := by
  rw [ht.block?, ht.valid.block?_of_mem he]

theorem head? (ht : t.ListsBlocks s h) : t.head? = .ok (h.getLast?.map HistoryEntry.block) := by
  rw [Tables.head?, load?, ht.head]
  cases hl : h.getLast? with
  | none => rfl
  | some e => simp [ht.valid.decode_encode (List.mem_of_getLast? hl)]

theorem blockAt? (ht : t.ListsBlocks s h) (n : UInt64) :
    t.blockAt? n = .ok (h[n.toNat]?.map HistoryEntry.block) := by
  rw [Tables.blockAt?, Tables.blockIdAt?, load?, ht.heights, List.getElem?_map]
  cases he : h[n.toNat]? with
  | none => rfl
  | some e => simp [ht.block?_of_mem (List.mem_of_getElem? he)]

theorem get?_blocks_iff (ht : t.ListsBlocks s h) :
    t.get? .blocks key = some value ↔ ∃ e ∈ h, key = e.block.id.bytes ∧ value = e.block.encode := by
  constructor
  · intro hv
    have hk : key.length = 16 := by
      by_contra hk
      simp [ht.blockKeys key hk] at hv
    obtain ⟨id, rfl⟩ := Identifier.exists_bytes_eq .block hk
    rw [ht.blocks, Option.map_eq_some_iff] at hv
    obtain ⟨b, hb, rfl⟩ := hv
    obtain ⟨e, he, rfl, rfl⟩ := exists_of_block? hb
    exact ⟨e, he, rfl, rfl⟩
  · rintro ⟨e, he, rfl, rfl⟩
    have hb : h.block? e.block.id = some e.block := ht.valid.block?_of_mem he
    rw [ht.blocks, hb, Option.map_some]

theorem get?_heights_iff (ht : t.ListsBlocks s h) :
    t.get? .heights key = some value ↔
      ∃ n e, h[n]? = some e ∧ key = heightKey (.ofNat n) ∧ value = e.block.id.bytes := by
  constructor
  · intro hv
    have hk : key.length = 8 := by
      by_contra hk
      simp [ht.heightKeys key hk] at hv
    obtain ⟨n, rfl⟩ := exists_heightKey_eq hk
    rw [ht.heights, List.getElem?_map, Option.map_map, Option.map_eq_some_iff] at hv
    obtain ⟨e, he, rfl⟩ := hv
    exact ⟨n.toNat, e, he, by rw [UInt64.ofNat_toNat], rfl⟩
  · rintro ⟨n, e, he, rfl, rfl⟩
    obtain ⟨hlt, _⟩ := List.getElem?_eq_some_iff.mp he
    rw [ht.heights, ht.valid.toNat_ofNat hlt, List.getElem?_map, he]
    rfl

theorem get?_head_iff (ht : t.ListsBlocks s h) :
    t.get? .head key = some value ↔
      key = headKey ∧ ∃ e, h.getLast? = some e ∧ value = e.block.encode := by
  by_cases hk : key = headKey
  · subst hk
    rw [ht.head, Option.map_eq_some_iff]
    simp only [true_and, eq_comm]
  · simp [hk, ht.headKeys key hk]

theorem congr (ht : t.ListsBlocks s h) (hb : u.blocks = t.blocks) (hh : u.heights = t.heights)
    (hd : u.head = t.head) : u.ListsBlocks s h := by
  have hgb : ∀ key, u.get? .blocks key = t.get? .blocks key := fun key => congrArg (·.get? key) hb
  have hgh : ∀ key, u.get? .heights key = t.get? .heights key := fun key => congrArg (·.get? key) hh
  have hgd : ∀ key, u.get? .head key = t.get? .head key := fun key => congrArg (·.get? key) hd
  exact ⟨ht.valid, fun id => (hgb _).trans (ht.blocks id), fun n => (hgh _).trans (ht.heights n),
    (hgd _).trans ht.head, fun key hk => (hgb key).trans (ht.blockKeys key hk),
    fun key hk => (hgh key).trans (ht.heightKeys key hk),
    fun key hk => (hgd key).trans (ht.headKeys key hk)⟩

theorem putRoot (ht : t.ListsBlocks s []) (hv : Valid s [⟨b, []⟩]) :
    (((t.putBlock b).putHeight 0 b.id).putHead b).ListsBlocks s [⟨b, []⟩] where
  valid := hv
  blocks := by
    intro id
    by_cases hid : id = b.id
    · simp [hid, BlockHistory.block?, HistoryEntry.id]
    · simp [hid, Ne.symm hid, Identifier.bytes_inj, ht.blocks,
        BlockHistory.block?, HistoryEntry.id]
  heights := by
    intro n
    by_cases hn : n = 0
    · simp [hn, HistoryEntry.id]
    · have hne : n.toNat ≠ 0 := fun h0 => hn (UInt64.toNat_inj.mp h0)
      simp [heightKey_inj, hn, ht.heights, hne]
  head := by simp
  blockKeys := by
    intro key hk
    have hne : key ≠ b.id.bytes := fun he => hk (he ▸ b.id.length_bytes)
    simp [hne, ht.blockKeys key hk]
  heightKeys := by
    intro key hk
    have hne : key ≠ heightKey 0 := fun he => hk (he ▸ length_bigEndian 8 _)
    simp [hne, ht.heightKeys key hk]
  headKeys := by
    intro key hk
    simp [hk, ht.headKeys key hk]

theorem link (ht : t.ListsBlocks s (init ++ [last])) {xs : List Transaction}
    (hv : Valid s (init ++ [last.before b.id, ⟨b, xs⟩])) :
    (Tables.link last.block b t).ListsBlocks s (init ++ [last.before b.id, ⟨b, xs⟩]) := by
  have hids := hv.nodup
  rw [map_id_append, List.nodup_append] at hids
  have hfresh : b.id ∉ (init ++ [last]).map HistoryEntry.id :=
    fun hm => hids.2.2 _ hm b.id (by simp) rfl
  have hne : last.id ≠ b.id := fun he => hfresh (he ▸ List.mem_map_of_mem (by simp))
  have hheight : b.height.toNat = ((init ++ [last]).map HistoryEntry.id).length := by
    have hl : (init ++ [last.before b.id, ⟨b, xs⟩])[init.length + 1]? = some ⟨b, xs⟩ := by simp
    simpa using hv.height hl
  refine ⟨hv, ?_, ?_, ?_, ?_, ?_, ?_⟩
  · intro id
    rw [block?_append (f := ⟨b, xs⟩) hids.1 hfresh]
    by_cases hl : id = last.id
    · simp [Tables.link, hl, HistoryEntry.id, HistoryEntry.before]
    · have hl' : id ≠ last.block.id := hl
      rw [if_neg hl]
      by_cases hb : id = b.id
      · subst hb
        simp [Tables.link, hl', Identifier.bytes_inj]
      · simp [Tables.link, hl', hb, Identifier.bytes_inj, ht.blocks]
  · intro n
    rw [map_id_append]
    by_cases hn : n = b.height
    · simp [Tables.link, hn, hheight, HistoryEntry.id]
    · have hnn : n.toNat ≠ ((init ++ [last]).map HistoryEntry.id).length := fun he =>
        hn (UInt64.toNat_inj.mp (he.trans hheight.symm))
      have hget : ((init ++ [last]).map HistoryEntry.id ++ [b.id])[n.toNat]? =
          ((init ++ [last]).map HistoryEntry.id)[n.toNat]? := by
        rcases Nat.lt_or_gt_of_ne hnn with hlt | hgt
        · exact List.getElem?_append_left hlt
        · rw [List.getElem?_eq_none (by rw [List.length_append]; exact hgt),
            List.getElem?_eq_none (by omega)]
      rw [HistoryEntry.id_mk, hget, ← ht.heights]
      simp [Tables.link, heightKey_inj, hn]
  · simp [Tables.link]
  · intro key hk
    have hb : key ≠ b.id.bytes := fun he => hk (he ▸ b.id.length_bytes)
    have hl : key ≠ last.block.id.bytes := fun he => hk (he ▸ last.block.id.length_bytes)
    simp [Tables.link, hb, hl, ht.blockKeys key hk]
  · intro key hk
    have hne : key ≠ heightKey b.height := fun he => hk (he ▸ length_bigEndian 8 _)
    simp [Tables.link, hne, ht.heightKeys key hk]
  · intro key hk
    simp [Tables.link, hk, ht.headKeys key hk]

end ListsBlocks

namespace Holds

/-- No tables but the empty ones hold the empty history. -/
theorem eq_empty (ht : t.Holds s []) : t = .empty := by
  obtain ⟨htransactions, hartifacts⟩ := ht.indexes.unique indexes_empty
  apply ext_get?
  intro table key
  rw [get?_empty]
  cases table with
  | transactions => exact (congrArg (·.get? key) htransactions).trans (get?_empty .transactions key)
  | artifacts => exact (congrArg (·.get? key) hartifacts).trans (get?_empty .artifacts key)
  | blocks =>
    by_cases hk : key.length = 16
    · obtain ⟨id, rfl⟩ := Identifier.exists_bytes_eq .block hk
      exact ht.blocks id
    · exact ht.blockKeys key hk
  | heights =>
    by_cases hk : key.length = 8
    · obtain ⟨n, rfl⟩ := exists_heightKey_eq hk
      exact ht.heights n
    · exact ht.heightKeys key hk
  | head =>
    by_cases hk : key = headKey
    · exact hk ▸ ht.head
    · exact ht.headKeys key hk

theorem createRoot (ht : t.Holds s []) (hc : Tables.createRoot s now t = .ok (b, u)) :
    u.Holds s [⟨b, []⟩] := by
  have hi := createRoot_indexes ht.indexes hc
  obtain ⟨c, hcert, rfl, rfl⟩ := createRoot_eq_ok hc
  exact ⟨ht.putRoot (valid_root hcert), hi⟩

theorem headOrRoot (ht : t.Holds s h) (hp : Tables.headOrRoot s now t = .ok (b, u)) :
    ∃ init last, last.block = b ∧ u.Holds s (init ++ [last]) ∧
      (h = init ++ [last] ∨ h = [] ∧ init = []) := by
  rcases headOrRoot_eq_ok hp with ⟨hhead, rfl⟩ | ⟨hhead, hc⟩
  · rw [ht.head?, Except.ok.injEq, Option.map_eq_some_iff] at hhead
    obtain ⟨last, hlast, rfl⟩ := hhead
    obtain ⟨init, rfl⟩ := List.getLast?_eq_some_iff.mp hlast
    exact ⟨init, last, rfl, ht, .inl rfl⟩
  · rw [ht.head?, Except.ok.injEq, Option.map_eq_none_iff, List.getLast?_eq_none_iff] at hhead
    subst hhead
    exact ⟨[], ⟨b, []⟩, rfl, ht.createRoot hc, .inr ⟨rfl, rfl⟩⟩

end Holds

/-- What an append may rely on: the identifier that was generated is not in use and names neither no
block nor the root, and the height and the size of the new block fit the eight bytes for them in its
record. -/
structure Admits (s : BlockSigner) (t : Tables) (fresh : BlockId)
    (pending : List Certificate) : Prop where
  unused : t.get? .blocks fresh.bytes = none
  ne_nil : fresh ≠ .nil
  ne_root : fresh ≠ .root
  height : ∀ head, t.head? = .ok (some head) → head.height.toNat + 1 < 2 ^ 64
  size : s.expectedSize pending < 2 ^ 64

namespace Holds

/-- A block is appended to the history, after a root if there is no other block. -/
theorem append (ht : t.Holds s h) (hfit : t.Admits s fresh pending)
    (ha : Tables.append s fresh now pending t = .ok (b, u)) :
    ∃ init last xs, u.Holds s (init ++ [last.before b.id, ⟨b, xs⟩]) ∧
      (h = init ++ [last] ∨ h = [] ∧ init = []) := by
  obtain ⟨xs, hxs, hx, hi⟩ := append_indexes ht.indexes ha
  obtain ⟨_, v, w, c, hp, hc, hw, rfl, rfl⟩ := append_eq_ok ha
  obtain ⟨init, last, rfl, hv, hh⟩ := ht.headOrRoot hp
  -- The caller speaks about the tables before a missing root was created, so each promise is
  -- carried over: to the same history, or to that of the root alone.
  have hfresh : fresh ∉ (init ++ [last]).map HistoryEntry.id := by
    rcases hh with rfl | ⟨rfl, rfl⟩
    · rw [← block?_eq_none_iff, ← Option.map_eq_none_iff, ← ht.blocks]
      exact hfit.unused
    · have hid : last.id = .root := (hv.valid.isRoot rfl).id
      simpa [hid] using hfit.ne_root
  have hheight : last.block.height.toNat + 1 < 2 ^ 64 := by
    rcases hh with rfl | ⟨rfl, rfl⟩
    · exact hfit.height last.block (by simp [ht.head?])
    · simp [(hv.valid.isRoot rfl).height]
  have hlog : BlockHistory.log (init ++ [last]) = h.log := by
    rcases hh with rfl | ⟨rfl, rfl⟩
    · rfl
    · simp [BlockHistory.log, HistoryEntry.log, (hv.valid.isRoot rfl).transactions]
  refine ⟨init, last, xs, ⟨?_, ?_⟩, hh⟩
  · obtain ⟨hb, hk, hd⟩ := recordAll_keeps hw
    refine (hv.congr hb hk hd).link (hv.valid.append (hxs ▸ hc) rfl rfl ?_ hfresh hfit.ne_nil ?_ hx)
    · have hadd : (last.block.height + 1).toNat = last.block.height.toNat + 1 := by
        rw [UInt64.toNat_add]
        exact Nat.mod_eq_of_lt hheight
      exact hadd
    · exact hc.visible_eq ▸ hfit.size
  · rw [log_append, hlog]
    exact hi

theorem ensureRoot (ht : t.Holds s h) (he : Tables.ensureRoot s now t = .ok (b, u)) :
    t.block? .root = .ok (some b) ∧ u = t ∨ h = [] ∧ u.Holds s [⟨b, []⟩] := by
  rcases ensureRoot_eq_ok he with hroot | ⟨hroot, hc⟩
  · exact .inl hroot
  · have hnil : h = [] := by
      cases h with
      | nil => rfl
      | cons e rest =>
        have hid : e.id = .root := (ht.valid.isRoot rfl).id
        rw [← hid, ht.block?_of_mem List.mem_cons_self] at hroot
        cases hroot
    subst hnil
    exact .inr ⟨rfl, ht.createRoot hc⟩

end Holds

end Tables

namespace Store

def Admits (s : Store) : StoreCall → Prop
  | .append fresh _ pending => s.tables.Admits s.signer fresh pending
  | .ensureRoot _ => True

/-- The stores that runs from an empty store lead to, whether their calls succeed or fail. -/
inductive Reachable : Store → Prop
  | start (signer : BlockSigner) : Reachable (start signer)
  | call {s : Store} (h : Reachable s) (c : StoreCall) (hc : s.Admits c) : Reachable (s.call c)

variable {s : Store}

theorem call_holds {c : StoreCall} {h : BlockHistory} (hs : s.tables.Holds s.signer h)
    (hc : s.Admits c) :
    ∃ h', (s.call c).tables.Holds s.signer h' := by
  refine call_induction (P := fun t => ∃ h', t.Holds s.signer h') ⟨h, hs⟩ ?_ ?_
  · rintro fresh now pending b t rfl ht
    obtain ⟨_, _, _, hu, _⟩ := hs.append hc ht
    exact ⟨_, hu⟩
  · intro now b t _ ht
    rcases hs.ensureRoot ht with ⟨_, rfl⟩ | ⟨_, hu⟩
    · exact ⟨h, hs⟩
    · exact ⟨_, hu⟩

/-- Whatever the calls, the tables are those of a history. -/
theorem Reachable.exists_history (hs : s.Reachable) : ∃ h, s.tables.Holds s.signer h := by
  induction hs with
  | start signer => exact ⟨[], Tables.holds_empty⟩
  | call _ c hc ih =>
    obtain ⟨h, hh⟩ := ih
    rw [call_signer]
    exact call_holds hh hc

end Store

namespace Sample

/-- A store with a block after the root. -/
def opened : Store :=
  (Store.start signer).run [appending ⟨.ofNat 16 3⟩ [starting ⟨.ofNat 16 4⟩], .ensureRoot 0]

def store : Store :=
  opened.call (.append ⟨.ofNat 16 5⟩ 0 [])

theorem reachable_opened : opened.Reachable := by
  have hfirst : (Store.start signer).Admits (appending ⟨.ofNat 16 3⟩ [starting ⟨.ofNat 16 4⟩]) := by
    refine ⟨by decide, by decide, by decide, fun head h => ?_, by decide⟩
    cases h
  exact .call (.call (.start signer) _ hfirst) (.ensureRoot 0) trivial

theorem admits_opened : opened.Admits (.append ⟨.ofNat 16 5⟩ 0 []) := by
  have hheight : opened.tables.head?.map (Option.map Block.height) = .ok (some 1) := by
    decide +kernel
  refine ⟨by decide +kernel, by decide, by decide, fun head h => ?_, by decide +kernel⟩
  rw [h] at hheight
  have hone : head.height = 1 := by simpa using hheight
  simp [hone]

theorem reachable : store.Reachable :=
  .call reachable_opened _ admits_opened

theorem signer_store : store.signer = signer :=
  (Store.call_signer ..).trans (Store.run_signer ..)

end Sample

end SignedLedger
