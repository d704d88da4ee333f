import SignedLedger.Proofs.StoredHistory

/-! The list of blocks. The height index, the links in both directions, the head and the records all
describe one list of blocks, from the root at height zero to the head. -/

namespace SignedLedger

namespace Tables

/-- The entries of the three block tables, in full, and how the blocks are linked. -/
structure StoresList (t : Tables) (blocks : List Block) : Prop where
  heights : ∀ key value, t.get? .heights key = some value ↔
    ∃ n, ∃ h : n < blocks.length, key = heightKey (.ofNat n) ∧ value = blocks[n].id.bytes
  records : ∀ key value, t.get? .blocks key = some value ↔
    ∃ b ∈ blocks, key = b.id.bytes ∧ value = b.encode
  head : ∀ key value, t.get? .head key = some value ↔
    key = headKey ∧ ∃ b, blocks.getLast? = some b ∧ value = b.encode
  decoded : ∀ b ∈ blocks, Block.decode b.encode = .ok b
  height : ∀ n (h : n < blocks.length), blocks[n].height.toNat = n
  distinct : (blocks.map Block.id).Nodup
  root : ∀ b, blocks.head? = some b → b.id = .root ∧ b.previous = .nil
  linked : ∀ n (h : n + 1 < blocks.length),
    blocks[n].next = blocks[n + 1].id ∧ blocks[n + 1].previous = blocks[n].id
  last : ∀ b, blocks.getLast? = some b → b.next = .nil

/-- The blocks that are visited from a block on, up to one that no block follows. -/
inductive Walk (t : Tables) : BlockId → List BlockId → Prop
  | stop {id : BlockId} (h : t.nextBlock? id = .ok none) : Walk t id [id]
  | step {id next : BlockId} {ids : List BlockId} (h : t.nextBlock? id = .ok (some next))
    (hw : Walk t next ids) : Walk t id (id :: ids)

variable {s : BlockSigner} {t : Tables} {h rest : BlockHistory} {e : HistoryEntry}

namespace ListsBlocks

theorem nextBlock? (ht : t.ListsBlocks s h) (he : e ∈ h) :
    t.nextBlock? e.id = .ok e.block.next.nonNil? := by
  rw [Tables.nextBlock?, ht.block?_of_mem he]
  rfl

theorem walk (ht : t.ListsBlocks s h) (done : BlockHistory) (hh : done ++ e :: rest = h) :
    t.Walk e.id ((e :: rest).map HistoryEntry.id) := by
  have he : e ∈ h := by simp [← hh]
  have hnext := ht.nextBlock? he
  induction rest generalizing done e with
  | nil =>
    have hlast : e.block.next = .nil := ht.valid.last e (by simp [← hh])
    rw [hlast] at hnext
    exact .stop hnext
  | cons f rest ih =>
    have hf : f ∈ h := by simp [← hh]
    have hchain := ht.valid.chain
    rw [← hh, List.isChain_append_cons_cons] at hchain
    rw [hchain.2.1.next, Identifier.nonNil?, if_neg (ht.valid.ne_nil f hf)] at hnext
    exact .step hnext (ih (done ++ [e]) (by simp [← hh]) hf (ht.nextBlock? hf))

theorem storesList (ht : t.ListsBlocks s h) : t.StoresList (h.map HistoryEntry.block) where
  heights := by
    intro key value
    rw [ht.get?_heights_iff]
    constructor
    · rintro ⟨n, e, he, hk, hv⟩
      obtain ⟨hlt, rfl⟩ := List.getElem?_eq_some_iff.mp he
      exact ⟨n, by simpa using hlt, hk, by rw [hv, List.getElem_map]⟩
    · rintro ⟨n, hn, hk, hv⟩
      have hlt : n < h.length := by simpa using hn
      exact ⟨n, h[n], List.getElem?_eq_getElem hlt, hk, by rw [hv, List.getElem_map]⟩
  records := by
    intro key value
    rw [ht.get?_blocks_iff]
    constructor
    · rintro ⟨e, he, hk, hv⟩
      exact ⟨e.block, List.mem_map_of_mem he, hk, hv⟩
    · rintro ⟨b, hb, hk, hv⟩
      obtain ⟨e, he, rfl⟩ := List.mem_map.mp hb
      exact ⟨e, he, hk, hv⟩
  head := by
    intro key value
    rw [ht.get?_head_iff]
    constructor
    · rintro ⟨hk, e, he, hv⟩
      exact ⟨hk, e.block, by rw [List.getLast?_map, he, Option.map_some], hv⟩
    · rintro ⟨hk, b, hb, hv⟩
      rw [List.getLast?_map, Option.map_eq_some_iff] at hb
      obtain ⟨e, he, rfl⟩ := hb
      exact ⟨hk, e, he, hv⟩
  decoded := by
    intro b hb
    obtain ⟨e, he, rfl⟩ := List.mem_map.mp hb
    exact ht.valid.decode_encode he
  height := by
    intro n hn
    have hlt : n < h.length := by simpa using hn
    rw [List.getElem_map]
    exact ht.valid.height (List.getElem?_eq_getElem hlt)
  distinct := by
    rw [List.map_map]
    exact ht.valid.nodup
  root := by
    intro b hb
    rw [List.head?_map, Option.map_eq_some_iff] at hb
    obtain ⟨e, he, rfl⟩ := hb
    exact ⟨(ht.valid.root e he).id, (ht.valid.root e he).previous⟩
  linked := by
    intro n hn
    have hlt : n + 1 < h.length := by simpa using hn
    have hbefore := List.getElem?_eq_getElem (Nat.lt_of_succ_lt hlt)
    have hp := ht.valid.precedes hbefore (List.getElem?_eq_getElem hlt)
    rw [List.getElem_map, List.getElem_map]
    exact ⟨hp.next, hp.previous⟩
  last := by
    intro b hb
    rw [List.getLast?_map, Option.map_eq_some_iff] at hb
    obtain ⟨e, he, rfl⟩ := hb
    exact ht.valid.last e he

end ListsBlocks

end Tables

namespace Store

/-- That the tables store the blocks as a list, and how it looks through the operations of the
store. -/
structure KeepsList (s : Store) (blocks : List Block) : Prop
    extends s.tables.StoresList blocks where
  ne_nil : blocks ≠ []
  latest : s.tables.head? = .ok blocks.getLast?
  walk : s.tables.Walk .root (blocks.map Block.id)
  ensured : ∀ now, ∃ root, blocks.head? = some root ∧ s.ensureRoot now = (.ok root, s)

variable {s : Store}

theorem keepsList_of_holds {h : BlockHistory} (hs : s.tables.Holds s.signer h) (hne : h ≠ []) :
    s.KeepsList (h.map HistoryEntry.block) where
  toStoresList := hs.storesList
  ne_nil := by simpa using hne
  latest := by rw [hs.head?, List.getLast?_map]
  walk := by
    obtain ⟨e, rest, rfl⟩ := List.exists_cons_of_ne_nil hne
    have hw : s.tables.Walk e.id ((e :: rest).map HistoryEntry.id) := hs.walk [] rfl
    rw [(hs.valid.isRoot rfl).id] at hw
    rw [List.map_map]
    exact hw
  ensured := by
    intro now
    obtain ⟨e, rest, rfl⟩ := List.exists_cons_of_ne_nil hne
    have hid : e.id = .root := (hs.valid.isRoot rfl).id
    have hroot : Tables.ensureRoot s.signer now s.tables = .ok (e.block, s.tables) := by
      rw [Tables.ensureRoot, ← hid, hs.block?_of_mem List.mem_cons_self]
      rfl
    refine ⟨e.block, rfl, ?_⟩
    rw [ensureRoot, write, hroot]

/-- What an append returns is the head afterwards, and is found under its identifier. -/
theorem returned_of_holds {h : BlockHistory} {fresh : BlockId} {now : UInt64}
    {pending : List Certificate} {b : Block}
    (hs : s.tables.Holds s.signer h) (hc : s.Admits (.append fresh now pending))
    (hb : (s.append fresh now pending).1 = .ok b) :
    (s.append fresh now pending).2.tables.head? = .ok (some b) ∧
      (s.append fresh now pending).2.tables.block? b.id = .ok (some b) := by
  unfold append at hb ⊢
  rcases s.write_cases (Tables.append s.signer fresh now pending) with ⟨_, hw⟩ | ⟨a, t, ht, hw⟩
  · rw [hw] at hb
    cases hb
  · rw [hw] at hb ⊢
    obtain rfl : a = b := Except.ok.inj hb
    obtain ⟨init, last, xs, hu, _⟩ := hs.append hc ht
    constructor
    · rw [hu.head?]
      simp
    · have hm : ⟨a, xs⟩ ∈ init ++ [last.before a.id, ⟨a, xs⟩] := by simp
      exact hu.block?_of_mem hm

/-- What ensuring a root returns is found as the root. -/
theorem rooted_of_holds {h : BlockHistory} {now : UInt64} {b : Block}
    (hs : s.tables.Holds s.signer h) (hb : (s.ensureRoot now).1 = .ok b) :
    (s.ensureRoot now).2.tables.block? .root = .ok (some b) := by
  unfold ensureRoot at hb ⊢
  rcases s.write_cases (Tables.ensureRoot s.signer now) with ⟨_, hw⟩ | ⟨a, t, ht, hw⟩
  · rw [hw] at hb
    cases hb
  · rw [hw] at hb ⊢
    obtain rfl : a = b := Except.ok.inj hb
    rcases hs.ensureRoot ht with ⟨hroot, rfl⟩ | ⟨_, hu⟩
    · exact hroot
    · have hid : a.id = .root := (hu.valid.isRoot rfl).id
      rw [← hid]
      exact hu.block?_of_mem List.mem_cons_self

/-- Unless a store is empty, it keeps its blocks as a list. What an append or the creation of a root
returns is what is found afterwards. -/
theorem Reachable.keepsList (hs : s.Reachable) :
    (s.tables = .empty ∨ ∃ blocks, s.KeepsList blocks) ∧
    (∀ fresh now pending b,
      s.Admits (.append fresh now pending) → (s.append fresh now pending).1 = .ok b →
      (s.append fresh now pending).2.tables.head? = .ok (some b) ∧
        (s.append fresh now pending).2.tables.block? b.id = .ok (some b)) ∧
    ∀ now b, (s.ensureRoot now).1 = .ok b →
      (s.ensureRoot now).2.tables.block? .root = .ok (some b) := by
  obtain ⟨h, hh⟩ := hs.exists_history
  refine ⟨?_, fun fresh now pending b hc hb => returned_of_holds hh hc hb,
    fun now b hb => rooted_of_holds hh hb⟩
  by_cases hne : h = []
  · exact .inl (hne ▸ hh).eq_empty
  · exact .inr ⟨_, keepsList_of_holds hh hne⟩

theorem keepsList_opened :
    (Sample.opened.tables = .empty ∨ ∃ blocks, Sample.opened.KeepsList blocks) ∧
    ∃ b, (Sample.opened.append ⟨.ofNat 16 5⟩ 0 []).1 = .ok b ∧
      (Sample.opened.append ⟨.ofNat 16 5⟩ 0 []).2.tables.head? = .ok (some b) := by
  obtain ⟨hlist, happend, _⟩ := Sample.reachable_opened.keepsList
  have hok : (Sample.opened.append ⟨.ofNat 16 5⟩ 0 []).1.toOption.isSome = true := by decide +kernel
  refine ⟨hlist, ?_⟩
  cases hb : (Sample.opened.append ⟨.ofNat 16 5⟩ 0 []).1 with
  | error e =>
    rw [hb] at hok
    cases hok
  | ok b => exact ⟨b, rfl, (happend ⟨.ofNat 16 5⟩ 0 [] b Sample.admits_opened hb).1⟩

end Store

end SignedLedger
