import SignedLedger.Proofs.ArtifactChain
import SignedLedger.Proofs.StoredHistory

/-! The ledger is append-only. An append keeps every entry of the block, transaction, artifact and
height tables, and changes of an earlier record only where it points: from nothing to what follows.
What points to something is never changed again. This takes that no transaction has the zero
identifier, which says that nothing follows. -/

namespace SignedLedger

namespace TransactionLog

variable {log more : TransactionLog} {a : ArtifactId} {e f g : LogEntry} {r : Artifact}

/-- No two transactions declare the same one. -/
theorem Valid.eq_of_previous_eq (h : log.Valid) (hn : log.Named) (he : e ∈ log) (hf : f ∈ log)
    (hg : g ∈ log) (hfe : f.previous = e.id) (hge : g.previous = e.id) : f = g := by
  have hea : e ∈ log.of e.artifact := mem_of_iff.mpr ⟨he, rfl⟩
  obtain ⟨done, rest, ho⟩ := List.mem_iff_append.mp hea
  have hfirst := (h.previous_eq_iff hn ho hf).mp hfe
  have hsecond := (h.previous_eq_iff hn ho hg).mp hge
  exact Option.some.inj (hfirst.symm.trans hsecond)

theorem next_append_of_forall (id : TransactionId) (hm : ∀ f ∈ more, f.previous ≠ id) :
    next (log ++ more) id = log.next id := by
  have hnone : more.filter (fun f => f.previous = id) = [] := by
    rw [List.filter_eq_nil_iff]
    intro f hf
    simpa using hm f hf
  simp only [next, List.filter_append, hnone, List.append_nil]

/-- What is added extends only what nothing extends so far. -/
theorem Valid.next_append_of_mem (h : Valid (log ++ more)) (hn : Named (log ++ more)) (he : e ∈ log)
    (hf : f ∈ more) (hfe : f.previous = e.id) :
    log.next e.id = .nil ∧ next (log ++ more) e.id = f.id ∧
      ∀ g ∈ more, g.previous = e.id → g = f := by
  have he' : e ∈ log ++ more := List.mem_append_left more he
  have hf' : f ∈ log ++ more := List.mem_append_right log hf
  have hne : e.id ≠ .nil := hn e he'
  have huniq : ∀ g ∈ log ++ more, g.previous = e.id → g = f := fun g hg hge =>
    h.eq_of_previous_eq hn he' hg hf' hge hfe
  have hlog : log.filter (fun g => g.previous = e.id) = [] := by
    rw [List.filter_eq_nil_iff]
    intro g hg hge
    obtain rfl := huniq g (List.mem_append_left more hg) (by simpa using hge)
    have hids := h.nodup
    rw [List.map_append, List.nodup_append] at hids
    exact hids.2.2 _ (List.mem_map_of_mem hg) _ (List.mem_map_of_mem hf) rfl
  refine ⟨?_, ?_, fun g hg => huniq g (List.mem_append_right log hg)⟩
  · rw [next, if_neg hne, hlog]
    rfl
  · have hmem : f ∈ (log ++ more).filter (fun g => g.previous = e.id) :=
      List.mem_filter.mpr ⟨hf', by simpa using hfe⟩
    cases hlast : ((log ++ more).filter fun g => g.previous = e.id).getLast? with
    | none =>
      rw [List.getLast?_eq_none_iff.mp hlast] at hmem
      cases hmem
    | some g =>
      obtain ⟨hg, hge⟩ := List.mem_filter.mp (List.mem_of_getLast? hlast)
      rw [next, if_neg hne, hlast, huniq g hg (by simpa using hge)]
      rfl

theorem artifact?_append_of_forall (hm : ∀ f ∈ more, f.artifact ≠ a) :
    artifact? (log ++ more) a = log.artifact? a := by
  have hnone : more.of a = [] := by
    rw [of, List.filter_eq_nil_iff]
    intro f hf
    simpa using hm f hf
  have ho : of (log ++ more) a = log.of a := by
    rw [of, List.filter_append]
    exact (congrArg (log.of a ++ ·) hnone).trans (List.append_nil _)
  rw [artifact?, artifact?, ho]

/-- The first transaction of an artifact stays the first. -/
theorem artifact?_append_of_mem (hr : log.artifact? a = some r) (hf : f ∈ more)
    (hfa : f.artifact = a) :
    ∃ g ∈ more, g.artifact = a ∧
      artifact? (log ++ more) a = some { r with lastBlock := g.block, last := g.id } := by
  obtain ⟨first, last, hfirst, _, rfl⟩ := artifact?_eq_some_iff.mp hr
  have hfm : f ∈ more.of a := mem_of_iff.mpr ⟨hf, hfa⟩
  have ho : of (log ++ more) a = log.of a ++ more.of a := List.filter_append _ _
  cases hlast : (more.of a).getLast? with
  | none =>
    rw [List.getLast?_eq_none_iff.mp hlast] at hfm
    cases hfm
  | some g =>
    obtain ⟨hg, hga⟩ := mem_of_iff.mp (List.mem_of_getLast? hlast)
    refine ⟨g, hg, hga, artifact?_eq_some_iff.mpr ⟨first, g, ?_, ?_, rfl⟩⟩
    · rw [ho, List.head?_append, hfirst]
      rfl
    · rw [ho, List.getLast?_append, hlast]
      rfl

end TransactionLog

namespace Tables

/-- What becomes of block `r` of the tables `t` when block `b` is appended: the former head points
to the new block, and no other block changes. -/
inductive KeepsBlock (t u : Tables) (b : BlockId) (r : Block) : Prop
  | head (h : t.head? = .ok (some r)) (hnext : r.next = .nil)
    (hu : u.get? .blocks r.id.bytes = some { r with next := b }.encode) : KeepsBlock t u b r
  | other (h : t.head? ≠ .ok (some r)) (hu : u.get? .blocks r.id.bytes = some r.encode) :
    KeepsBlock t u b r

/-- What becomes of transaction `r` when the transactions `xs` are appended: it points to the one
that declares it, and is as it was if there is none. -/
inductive KeepsTransaction (u : Tables) (xs : List Transaction) (r : RecordedTransaction) : Prop
  | extended {x : Transaction} (hx : x ∈ xs) (hp : x.previous = r.id)
    (only : ∀ y ∈ xs, y.previous = r.id → y = x) (hnext : r.next = .nil)
    (hu : u.get? .transactions r.id.bytes = some { r with next := x.id }.encode) :
    KeepsTransaction u xs r
  | other (h : ∀ x ∈ xs, x.previous ≠ r.id)
    (hu : u.get? .transactions r.id.bytes = some r.encode) : KeepsTransaction u xs r

/-- What becomes of artifact `r` when block `b` is appended with the transactions `xs`: one of those
that name the artifact is its last, and is in the block. -/
inductive KeepsArtifact (u : Tables) (b : BlockId) (xs : List Transaction) (r : Artifact) : Prop
  | moved {x : Transaction} (hx : x ∈ xs) (ha : x.artifact = r.id)
    (hu : u.get? .artifacts r.id.bytes = some { r with lastBlock := b, last := x.id }.encode) :
    KeepsArtifact u b xs r
  | other (h : ∀ x ∈ xs, x.artifact ≠ r.id)
    (hu : u.get? .artifacts r.id.bytes = some r.encode) : KeepsArtifact u b xs r

/-- What is left of the entries of `t` once block `b` is appended with the transactions `xs`. -/
structure Grows (t u : Tables) (b : BlockId) (xs : List Transaction) : Prop where
  blocks : ∀ key value, t.get? .blocks key = some value →
    ∃ r, Block.decode value = .ok r ∧ key = r.id.bytes ∧ value = r.encode ∧ t.KeepsBlock u b r
  transactions : ∀ key value, t.get? .transactions key = some value →
    ∃ r, RecordedTransaction.decode value = .ok r ∧ key = r.id.bytes ∧ value = r.encode ∧
      u.KeepsTransaction xs r
  artifacts : ∀ key value, t.get? .artifacts key = some value →
    ∃ r, Artifact.decode value = .ok r ∧ key = r.id.bytes ∧ value = r.encode ∧
      u.KeepsArtifact b xs r
  heights : ∀ key value, t.get? .heights key = some value → u.get? .heights key = some value

/-- That no record of a block or of a transaction which points to another one changes any more. -/
structure KeepsLinks (t u : Tables) : Prop where
  blocks : ∀ key value r, t.get? .blocks key = some value → Block.decode value = .ok r →
    r.next ≠ .nil → u.get? .blocks key = some value
  transactions : ∀ key value r, t.get? .transactions key = some value →
    RecordedTransaction.decode value = .ok r → r.next ≠ .nil →
      u.get? .transactions key = some value

variable {t u v : Tables} {log : TransactionLog} {xs : List Transaction} {fresh : BlockId}
variable {s : BlockSigner} {init h : BlockHistory} {last : HistoryEntry} {b : Block}
variable {key value : Bytes} {now : UInt64} {pending : List Certificate}

theorem KeepsLinks.refl (t : Tables) : t.KeepsLinks t :=
  ⟨fun _ _ _ hv _ _ => hv, fun _ _ _ hv _ _ => hv⟩

theorem KeepsLinks.trans (h : t.KeepsLinks u) (h' : u.KeepsLinks v) : t.KeepsLinks v where
  blocks := fun key value r hv hr hne =>
    h'.blocks key value r (h.blocks key value r hv hr hne) hr hne
  transactions := fun key value r hv hr hne =>
    h'.transactions key value r (h.transactions key value r hv hr hne) hr hne

theorem keepsLinks_empty (u : Tables) : KeepsLinks .empty u where
  blocks := by
    intro key value r hv
    rw [get?_empty] at hv
    cases hv
  transactions := by
    intro key value r hv
    rw [get?_empty] at hv
    cases hv

/-- Links are set where there was none. -/
theorem Grows.keepsLinks {id : BlockId} (h : t.Grows u id xs) : t.KeepsLinks u where
  blocks := by
    intro key value r hv hr hne
    obtain ⟨r', hr', rfl, rfl, hkept⟩ := h.blocks key value hv
    obtain rfl := Except.ok.inj (hr.symm.trans hr')
    cases hkept with
    | head _ hnext _ => exact absurd hnext hne
    | other _ hu => exact hu
  transactions := by
    intro key value r hv hr hne
    obtain ⟨r', hr', rfl, rfl, hkept⟩ := h.transactions key value hv
    obtain rfl := Except.ok.inj (hr.symm.trans hr')
    cases hkept with
    | extended _ _ _ hnext _ => exact absurd hnext hne
    | other _ hu => exact hu

theorem Indexes.get?_artifacts_iff (h : t.Indexes log) :
    t.get? .artifacts key = some value ↔
      ∃ r, log.artifact? r.id = some r ∧ key = r.id.bytes ∧ value = r.encode := by
  constructor
  · intro hv
    have hk : key.length = 16 := by
      by_contra hk
      simp [(h.keys key hk).2] at hv
    obtain ⟨a, rfl⟩ := Identifier.exists_bytes_eq .artifact hk
    rw [h.artifacts, Option.map_eq_some_iff] at hv
    obtain ⟨r, hr, rfl⟩ := hv
    obtain rfl := TransactionLog.artifact?_id hr
    exact ⟨r, hr, rfl, rfl⟩
  · rintro ⟨r, hr, rfl, rfl⟩
    rw [h.artifacts, hr, Option.map_some]

/-- The tables hold no transaction with the zero identifier. -/
def Named (t : Tables) : Prop :=
  t.get? .transactions (Identifier.nil : TransactionId).bytes = none

theorem Indexes.named_iff (h : t.Indexes log) : t.Named ↔ log.Named := by
  have hnone : t.Named ↔ log.found? .nil = none := by
    rw [Named, h.transactions, TransactionLog.transaction?, Option.map_map, Option.map_eq_none_iff]
  exact hnone.trans TransactionLog.found?_eq_none_iff

theorem Indexes.keepsTransaction {e : LogEntry} (hu : u.Indexes (log ++ xs.map (LogEntry.mk fresh)))
    (hn : TransactionLog.Named (log ++ xs.map (LogEntry.mk fresh))) (he : e ∈ log) :
    u.KeepsTransaction xs (e.recorded (log.next e.id)) := by
  have hkept : u.get? .transactions e.id.bytes = some (e.recorded
      (TransactionLog.next (log ++ xs.map (LogEntry.mk fresh)) e.id)).encode :=
    hu.get?_transactions_iff.mpr ⟨e, List.mem_append_left _ he, rfl, rfl⟩
  by_cases hx : ∃ x ∈ xs, x.previous = e.id
  · obtain ⟨x, hm, hp⟩ := hx
    have hf : LogEntry.mk fresh x ∈ xs.map (LogEntry.mk fresh) := List.mem_map_of_mem hm
    obtain ⟨hnil, hnext, huniq⟩ := hu.valid.next_append_of_mem hn he hf hp
    rw [hnext] at hkept
    refine .extended hm hp (fun y hy hyp => ?_) hnil hkept
    have heq := huniq ⟨fresh, y⟩ (List.mem_map_of_mem hy) hyp
    exact congrArg LogEntry.transaction heq
  · have hall : ∀ x ∈ xs, x.previous ≠ e.id := fun x hm hp => hx ⟨x, hm, hp⟩
    rw [TransactionLog.next_append_of_forall e.id (List.forall_mem_map.mpr hall)] at hkept
    exact .other hall hkept

theorem Indexes.keepsArtifact {r : Artifact} (hu : u.Indexes (log ++ xs.map (LogEntry.mk fresh)))
    (hr : log.artifact? r.id = some r) : u.KeepsArtifact fresh xs r := by
  by_cases hx : ∃ x ∈ xs, x.artifact = r.id
  · obtain ⟨x, hm, ha⟩ := hx
    have hf : LogEntry.mk fresh x ∈ xs.map (LogEntry.mk fresh) := List.mem_map_of_mem hm
    obtain ⟨g, hg, hga, hlast⟩ := TransactionLog.artifact?_append_of_mem hr hf ha
    obtain ⟨y, hy, rfl⟩ := List.mem_map.mp hg
    refine .moved hy hga ?_
    rw [hu.artifacts, hlast]
    rfl
  · have hall : ∀ x ∈ xs, x.artifact ≠ r.id := fun x hm ha => hx ⟨x, hm, ha⟩
    refine .other hall ?_
    rw [hu.artifacts, TransactionLog.artifact?_append_of_forall (List.forall_mem_map.mpr hall), hr,
      Option.map_some]

theorem ListsBlocks.keepsBlock {e : HistoryEntry} (ht : t.ListsBlocks s (init ++ [last]))
    (hu : u.ListsBlocks s (init ++ [last.before b.id, ⟨b, xs⟩])) (he : e ∈ init ++ [last]) :
    t.KeepsBlock u b.id e.block := by
  have hhead : t.head? = .ok (some last.block) := by
    rw [ht.head?, List.getLast?_concat]
    rfl
  rcases List.mem_append.mp he with hinit | hlast
  · have hkept : u.get? .blocks e.block.id.bytes = some e.block.encode :=
      hu.get?_blocks_iff.mpr ⟨e, List.mem_append_left _ hinit, rfl, rfl⟩
    refine .other (fun heq => ?_) hkept
    have hblock : last.block = e.block := Option.some.inj (Except.ok.inj (hhead.symm.trans heq))
    have hids := ht.valid.nodup
    rw [List.map_append, List.nodup_append] at hids
    exact hids.2.2 e.id (List.mem_map_of_mem hinit) last.id (by simp)
      (congrArg Block.id hblock).symm
  · obtain rfl := List.mem_singleton.mp hlast
    have hnext : e.block.next = .nil := ht.valid.last e (by simp)
    exact .head hhead hnext (hu.get?_blocks_iff.mpr ⟨e.before b.id, by simp, rfl, rfl⟩)

theorem ListsBlocks.keepsHeight (ht : t.ListsBlocks s (init ++ [last]))
    (hu : u.ListsBlocks s (init ++ [last.before b.id, ⟨b, xs⟩]))
    (hv : t.get? .heights key = some value) : u.get? .heights key = some value := by
  have hk : key.length = 8 := by
    by_contra hk
    simp [ht.heightKeys key hk] at hv
  obtain ⟨n, rfl⟩ := exists_heightKey_eq hk
  rw [ht.heights, Option.map_eq_some_iff] at hv
  obtain ⟨id, hid, rfl⟩ := hv
  obtain ⟨hlt, _⟩ := List.getElem?_eq_some_iff.mp hid
  rw [hu.heights, BlockHistory.map_id_append, List.getElem?_append_left hlt, hid, Option.map_some]

theorem Holds.grows (ht : t.Holds s h) (hn : t.Named) (hfit : t.Admits s fresh pending)
    (hp : (StoreCall.append fresh now pending).Named)
    (ha : Tables.append s fresh now pending t = .ok (b, u)) :
    u.Named ∧ ∃ xs, pending.map Transaction.parse = xs.map .ok ∧ t.Grows u b.id xs := by
  obtain ⟨xs, rfl, hparse, hu⟩ := append_indexes ht.indexes ha
  obtain ⟨_, _, _, _, _, _, _, hb, _⟩ := append_eq_ok ha
  have hid : b.id = fresh := congrArg Block.id hb
  have hread : (xs.map Transaction.certificate).map Transaction.parse = xs.map .ok := by
    rw [List.map_map]
    exact List.map_congr_left hparse
  have hnamed : TransactionLog.Named (h.log ++ xs.map (LogEntry.mk fresh)) := by
    intro e he
    rcases List.mem_append.mp he with he | he
    · exact ht.indexes.named_iff.mp hn e he
    · obtain ⟨x, hx, rfl⟩ := List.mem_map.mp he
      exact hp _ (List.mem_map_of_mem hx) x (hparse x hx)
  refine ⟨hu.named_iff.mpr hnamed, xs, hread, ?_⟩
  obtain ⟨init, last, ys, hv, hh⟩ := ht.append hfit ha
  -- Where there is an entry, there is a block, and `last` is the one that was the head.
  have hlists : ∀ table key value, t.get? table key = some value → h = init ++ [last] := by
    intro table key value hget
    refine hh.resolve_right ?_
    rintro ⟨rfl, _⟩
    rw [ht.eq_empty, get?_empty] at hget
    cases hget
  refine ⟨?_, ?_, ?_, ?_⟩
  · intro key value hget
    obtain rfl := hlists _ _ _ hget
    obtain ⟨e, he, rfl, rfl⟩ := ht.get?_blocks_iff.mp hget
    exact ⟨e.block, ht.valid.decode_encode he, rfl, rfl, ht.keepsBlock hv.toListsBlocks he⟩
  · intro key value hget
    obtain ⟨e, he, rfl, rfl⟩ := ht.indexes.get?_transactions_iff.mp hget
    exact ⟨_, e.decode_encode_recorded _ (ht.indexes.small e he), rfl, rfl,
      hu.keepsTransaction hnamed he⟩
  · intro key value hget
    obtain ⟨r, hr, rfl, rfl⟩ := ht.indexes.get?_artifacts_iff.mp hget
    exact ⟨r, Artifact.decode_encode r, rfl, rfl, hid ▸ hu.keepsArtifact hr⟩
  · intro key value hget
    obtain rfl := hlists _ _ _ hget
    exact ht.toListsBlocks.keepsHeight hv.toListsBlocks hget

end Tables

namespace Store

/-- That `u` is what further calls make of `s`, none of which carries the zero identifier. -/
inductive Onward (s : Store) : Store → Prop
  | refl : Onward s s
  | call {u : Store} (h : Onward s u) (c : StoreCall) (hc : u.Admits c) (hn : c.Named) :
    Onward s (u.call c)

/-- That an append rewrites nothing but open links, and that no run undoes a link. -/
structure AppendOnly (s : Store) : Prop where
  grows : ∀ fresh now pending b, s.Admits (.append fresh now pending) →
    (StoreCall.append fresh now pending).Named → (s.append fresh now pending).1 = .ok b →
      ∃ xs, pending.map Transaction.parse = xs.map .ok ∧
        s.tables.Grows (s.append fresh now pending).2.tables b.id xs
  links : ∀ u, s.Onward u → s.tables.KeepsLinks u.tables

variable {s u : Store} {c : StoreCall}

theorem Reachable.call_keepsLinks (hs : s.Reachable) (hn : s.tables.Named) (hc : s.Admits c)
    (hcn : c.Named) : (s.call c).tables.Named ∧ s.tables.KeepsLinks (s.call c).tables := by
  obtain ⟨h, hh⟩ := hs.exists_history
  refine call_induction (P := fun t => t.Named ∧ s.tables.KeepsLinks t) ⟨hn, .refl _⟩ ?_ ?_
  · rintro fresh now pending b t rfl ha
    obtain ⟨hnamed, xs, _, hgrows⟩ := hh.grows hn hc hcn ha
    exact ⟨hnamed, hgrows.keepsLinks⟩
  · intro now b t _ he
    rcases hh.ensureRoot he with ⟨_, rfl⟩ | ⟨rfl, hu⟩
    · exact ⟨hn, .refl _⟩
    · refine ⟨hu.indexes.named_iff.mpr fun e hm => ?_, ?_⟩
      · simp [BlockHistory.log, HistoryEntry.log] at hm
      · rw [hh.eq_empty]
        exact Tables.keepsLinks_empty t

theorem Reachable.onward (hs : s.Reachable) (hn : s.tables.Named) (h : s.Onward u) :
    u.Reachable ∧ u.tables.Named ∧ s.tables.KeepsLinks u.tables := by
  induction h with
  | refl => exact ⟨hs, hn, .refl _⟩
  | call _ c hc hcn ih =>
    obtain ⟨hu, hun, hkeeps⟩ := ih
    obtain ⟨hnamed, hstep⟩ := hu.call_keepsLinks hun hc hcn
    exact ⟨.call hu c hc, hnamed, hkeeps.trans hstep⟩

/-- Every reachable store without a transaction under the zero identifier is append-only. -/
theorem Reachable.appendOnly (hs : s.Reachable) (hn : s.tables.Named) : s.AppendOnly where
  grows := by
    intro fresh now pending b hc hcn hb
    obtain ⟨h, hh⟩ := hs.exists_history
    rcases s.write_cases (Tables.append s.signer fresh now pending) with ⟨e, hw⟩ | ⟨b', t, ha, hw⟩
    · have happend : s.append fresh now pending = (.error e, s) := hw
      rw [happend] at hb
      cases hb
    · have happend : s.append fresh now pending = (.ok b', { s with tables := t }) := hw
      rw [happend] at hb ⊢
      obtain rfl : b' = b := Except.ok.inj hb
      exact (hh.grows hn hc hcn ha).2
  links := fun _ h => (hs.onward hn h).2.2

end Store

/-! A block that extends the only transaction of the sample. -/

namespace Sample

def extending : StoreCall :=
  appending ⟨.ofNat 16 5⟩ [following ⟨.ofNat 16 6⟩ ⟨.ofNat 16 4⟩]

theorem admits_extending : opened.Admits extending := by
  have h : opened.tables.Admits opened.signer ⟨.ofNat 16 5⟩ [] := admits_opened
  exact ⟨h.unused, h.ne_nil, h.ne_root, h.height, by decide +kernel⟩

theorem named_extending : extending.Named :=
  named_appending (by decide +kernel)

end Sample

namespace Store

theorem appendOnly_opened : Sample.opened.Reachable ∧ Sample.opened.tables.Named ∧
    Sample.opened.AppendOnly ∧ Sample.opened.Onward (Sample.opened.call Sample.extending) ∧
    Sample.opened.tables.transaction? ⟨.ofNat 16 4⟩ =
      .ok (some ⟨⟨.ofNat 16 4⟩, ⟨.ofNat 16 3⟩, .nil, .nil,
        (Sample.starting ⟨.ofNat 16 4⟩).certificate⟩) ∧
    (Sample.opened.call Sample.extending).tables.transaction? ⟨.ofNat 16 4⟩ =
      .ok (some ⟨⟨.ofNat 16 4⟩, ⟨.ofNat 16 3⟩, .nil, ⟨.ofNat 16 6⟩,
        (Sample.starting ⟨.ofNat 16 4⟩).certificate⟩) := by
  have hnamed : Sample.opened.tables.Named := by
    unfold Tables.Named
    decide +kernel
  exact ⟨Sample.reachable_opened, hnamed, Sample.reachable_opened.appendOnly hnamed,
    .call .refl _ Sample.admits_extending Sample.named_extending, by decide +kernel,
    by decide +kernel⟩

end Store

end SignedLedger
