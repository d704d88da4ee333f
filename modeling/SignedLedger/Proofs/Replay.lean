import SignedLedger.Proofs.StoredHistory

/-! Replaying the blocks. What the blocks wrap is enough to build the tables of transactions and
artifacts again, although these were written from the certificates that were appended, and not from
the blocks. -/

namespace SignedLedger

/-- That `b` wraps a value that reads as `x`. -/
def Block.Wraps (b : Block) (x : Transaction) : Prop :=
  ∃ found, b.certificate.fieldsOf .wrappedTransaction = .ok found ∧
    ∃ f ∈ found, Transaction.parse f.nested = .ok x

namespace Tables

/-- That `blocks` are the blocks at all heights from zero to that of the head. -/
structure HasChain (t : Tables) (blocks : List Block) : Prop where
  head : t.head? = .ok blocks.getLast?
  blocks : ∀ n (h : n < blocks.length),
    t.blockAt? (.ofNat n) = .ok (some blocks[n]) ∧ blocks[n].height.toNat = n

def replayBlock (t : Tables) (b : Block) : Except StoreError Tables := do
  let wrapped ← (liftCodec (b.certificate.fieldsOf .wrappedTransaction)).mapError .certificate
  t.recordAll b.id (wrapped.map Field.nested)

def replay (blocks : List Block) : Except StoreError Tables :=
  blocks.foldlM replayBlock .empty

variable {s : BlockSigner} {t : Tables} {done h : BlockHistory} {e : HistoryEntry}

/-- A certificate is recorded as its visible bytes are. -/
theorem recordCertificate_shown (block : BlockId) (t : Tables) (c : Certificate) :
    t.recordCertificate block c.shown = t.recordCertificate block c := by
  rw [recordCertificate, recordCertificate, Transaction.parse_shown]
  cases Transaction.parse c with
  | error e => rfl
  | ok x =>
    have hput : ∀ r : RecordedTransaction, t.putTransaction r.shown = t.putTransaction r := by
      intro r
      rw [putTransaction, putTransaction, r.encode_shown]
      rfl
    have hx : t.putTransaction ⟨x.id, block, x.previous, .nil, x.certificate.shown⟩ =
        t.putTransaction ⟨x.id, block, x.previous, .nil, x.certificate⟩ :=
          hput ⟨x.id, block, x.previous, .nil, x.certificate⟩
    have hprevious : t.previousOf x.shown = t.previousOf x := rfl
    have hartifact : t.extendArtifact block x.shown = t.extendArtifact block x := rfl
    simp only [map_ok, mapError_ok, ok_bind, record, hprevious, hartifact]
    simp only [Transaction.shown, hx]

theorem recordAll_shown (block : BlockId) (t : Tables) (pending : List Certificate) :
    t.recordAll block (pending.map Certificate.shown) = t.recordAll block pending := by
  induction pending generalizing t with
  | nil => rfl
  | cons c rest ih =>
    rw [List.map_cons, recordAll, recordAll, List.foldlM_cons, List.foldlM_cons,
      recordCertificate_shown]
    exact bind_congr fun u => ih u

theorem nested_eq {found : List Field} {pending : List Certificate}
    (h : found.map Field.value = pending.map Certificate.visibleBytes) :
    found.map Field.nested = pending.map Certificate.shown := by
  have hb := congrArg (List.map Certificate.ofBytes) h
  rwa [List.map_map, List.map_map] at hb

/-- A block of the history is accepted where the blocks before it have been replayed. -/
theorem replayBlock_eq_ok (ht : t.Indexes done.log) (hv : h.Valid s) (hl : h.log.Valid)
    (hp : done ++ [e] <+: h) :
    ∃ u, t.replayBlock e.block = .ok u ∧ u.Indexes (BlockHistory.log (done ++ [e])) := by
  obtain ⟨more, rfl⟩ := hp
  have he : e ∈ done ++ [e] ++ more := by simp
  have hlog : BlockHistory.log (done ++ [e]) = done.log ++ e.log := by simp [BlockHistory.log]
  have hprefix : done.log ++ e.log <+: BlockHistory.log (done ++ [e] ++ more) :=
    ⟨BlockHistory.log more, by rw [← hlog]; simp [BlockHistory.log]⟩
  obtain ⟨header, _, _, _, hc⟩ := hv.exists_header he
  obtain ⟨found, hfound, hvalues⟩ := hc.wrapped_eq
  have hsmall : ∀ c ∈ e.wrapped, c.visible < 2 ^ 64 := fun c hm =>
    Nat.lt_of_le_of_lt (hc.visible_le hm) (by decide)
  have hs := ht.recordAll e.id hsmall
  have hlogged : done.log.recordAll e.id e.wrapped = .ok (done.log ++ e.log) :=
    hl.recordAll_of_prefix (hv.parsed e he) hprefix
  rw [hlogged] at hs
  have hr : t.replayBlock e.block = t.recordAll e.id e.wrapped := by
    rw [replayBlock, hfound, liftCodec_ok, mapError_ok, ok_bind, nested_eq hvalues, recordAll_shown]
    rfl
  rw [hr, hlog]
  generalize t.recordAll e.id e.wrapped = r at hs
  cases hs with
  | ok hi => exact ⟨_, rfl, hi⟩

theorem foldlM_replayBlock_eq_ok (done rest : BlockHistory) (ht : t.Indexes done.log)
    (hv : h.Valid s) (hl : h.log.Valid) (hp : done ++ rest <+: h) :
    ∃ u, (rest.map HistoryEntry.block).foldlM replayBlock t = .ok u ∧
      u.Indexes (BlockHistory.log (done ++ rest)) := by
  -- What has been replayed grows with every step, and `t` is always an index of it.
  induction rest generalizing done t with
  | nil => exact ⟨t, rfl, by simpa using ht⟩
  | cons e rest ih =>
    rw [List.append_cons] at hp ⊢
    obtain ⟨u, hu, hi⟩ := replayBlock_eq_ok ht hv hl ((List.prefix_append ..).trans hp)
    rw [List.map_cons, List.foldlM_cons, hu]
    exact ih _ hi hp

theorem ListsBlocks.hasChain (ht : t.ListsBlocks s h) : t.HasChain (h.map HistoryEntry.block) where
  head := by rw [ht.head?, List.getLast?_map]
  blocks := by
    intro n hn
    have hlt : n < h.length := by simpa using hn
    have he := List.getElem?_eq_getElem hlt
    rw [ht.blockAt?, ht.valid.toNat_ofNat hlt, he, List.getElem_map]
    exact ⟨rfl, ht.valid.height he⟩

theorem Holds.replay_eq_ok (ht : t.Holds s h) :
    ∃ u, replay (h.map HistoryEntry.block) = .ok u ∧ u.transactions = t.transactions ∧
      u.artifacts = t.artifacts := by
  obtain ⟨u, hu, hi⟩ :=
    foldlM_replayBlock_eq_ok [] h indexes_empty ht.valid ht.indexes.valid (List.prefix_refl h)
  exact ⟨u, hu, hi.unique ht.indexes⟩

end Tables

namespace BlockHistory

variable {s : BlockSigner} {h : BlockHistory} {e : HistoryEntry} {x : Transaction} {l : LogEntry}

theorem mem_log_iff : l ∈ h.log ↔ ∃ e ∈ h, ∃ x ∈ e.transactions, LogEntry.mk e.id x = l := by
  simp [log, HistoryEntry.log]

theorem Valid.wraps_iff (hv : h.Valid s) (he : e ∈ h) :
    e.block.Wraps x ↔ ∃ y ∈ e.transactions, y.shown = x := by
  obtain ⟨header, _, _, _, hc⟩ := hv.exists_header he
  obtain ⟨found, hfound, hvalues⟩ := hc.wrapped_eq
  have hread : ∀ y ∈ e.transactions, Transaction.parse y.certificate.shown = .ok y.shown :=
    fun y hy => Transaction.parse_certificate_shown (hv.parsed e he y hy)
  have hnested : found.map Field.nested = e.transactions.map fun y => y.certificate.shown := by
    rw [Tables.nested_eq hvalues, HistoryEntry.wrapped, List.map_map]
    rfl
  constructor
  · rintro ⟨found', hfound', f, hf, hx⟩
    obtain rfl : found = found' := Except.ok.inj (hfound.symm.trans hfound')
    have hm := List.mem_map_of_mem (f := Field.nested) hf
    rw [hnested] at hm
    obtain ⟨y, hy, hyf⟩ := List.mem_map.mp hm
    rw [← hyf, hread y hy] at hx
    exact ⟨y, hy, Except.ok.inj hx⟩
  · rintro ⟨y, hy, rfl⟩
    have hm := List.mem_map_of_mem (f := fun y : Transaction => y.certificate.shown) hy
    rw [← hnested] at hm
    obtain ⟨f, hf, hyf⟩ := List.mem_map.mp hm
    exact ⟨found, hfound, f, hf, hyf ▸ hread y hy⟩

end BlockHistory

namespace Tables

variable {s : BlockSigner} {t : Tables} {h : BlockHistory}

/-- That `blocks` and the indexes of transactions and artifacts say the same. -/
structure ReplayOf (t : Tables) (blocks : List Block) : Prop where
  replay : ∃ u, replay blocks = .ok u ∧ u.transactions = t.transactions ∧ u.artifacts = t.artifacts
  wrapped : ∀ id r, t.transaction? id = .ok (some r) →
    ∃ b ∈ blocks, b.id = r.block ∧ ∃ x, b.Wraps x ∧ x.id = id ∧ x.certificate = r.certificate
  recorded : ∀ b ∈ blocks, ∀ x, b.Wraps x → ∃ r, t.transaction? x.id = .ok (some r) ∧
    r.block = b.id ∧ r.previous = x.previous ∧ r.certificate = x.certificate

theorem Holds.replayOf (ht : t.Holds s h) : t.ReplayOf (h.map HistoryEntry.block) where
  replay := ht.replay_eq_ok
  wrapped := by
    intro id r hr
    obtain ⟨l, hl, rfl, rfl⟩ := ht.indexes.transaction?_eq_some_iff.mp hr
    obtain ⟨e, he, x, hx, rfl⟩ := BlockHistory.mem_log_iff.mp hl
    exact ⟨e.block, List.mem_map_of_mem he, rfl, x.shown, (ht.valid.wraps_iff he).mpr ⟨x, hx, rfl⟩,
      rfl, rfl⟩
  recorded := by
    intro b hb x hx
    obtain ⟨e, he, rfl⟩ := List.mem_map.mp hb
    obtain ⟨y, hy, rfl⟩ := (ht.valid.wraps_iff he).mp hx
    have hm : LogEntry.mk e.id y ∈ h.log := BlockHistory.mem_log_iff.mpr ⟨e, he, y, hy, rfl⟩
    exact ⟨_, ht.indexes.transaction?_eq_some_iff.mpr ⟨_, hm, rfl, rfl⟩, rfl, rfl, rfl⟩

end Tables

namespace Store

/-- The indexes of a store are the replay of its blocks, whatever was appended. -/
theorem Reachable.replayOf_chain {s : Store} (hs : s.Reachable) :
    ∃ blocks, s.tables.HasChain blocks ∧ s.tables.ReplayOf blocks := by
  obtain ⟨h, hh⟩ := hs.exists_history
  exact ⟨h.map HistoryEntry.block, hh.hasChain, hh.replayOf⟩

theorem replayOf_chain_sample : Sample.store.Reachable ∧
    ∃ blocks, Sample.store.tables.HasChain blocks ∧ Sample.store.tables.ReplayOf blocks :=
  ⟨Sample.reachable, Sample.reachable.replayOf_chain⟩

end Store

end SignedLedger
