import Mathlib.Data.List.Perm.Basic
import SignedLedger.Proofs.ArtifactChain
import SignedLedger.Proofs.BlockRenaming

/-! Batches in another order. The transactions of different artifacts share a table and may name
each other, but a transaction is accepted by the chain of its own artifact. Whatever order keeps the
order of each artifact is accepted alike, and the same records are written. -/

namespace SignedLedger

namespace Transaction

/-- That each transaction declares the one before it, and that the first one declares `p`. -/
def Linked (p : TransactionId) : List Transaction → Prop
  | [] => True
  | x :: xs => x.previous = p ∧ Linked x.id xs

theorem linked_append {p : TransactionId} {xs : List Transaction} {x : Transaction} :
    Linked p (xs ++ [x]) ↔ Linked p xs ∧ x.previous = (xs.getLast?.map id).getD p := by
  induction xs generalizing p with
  | nil => simp [Linked]
  | cons y xs ih =>
    have hlast : ((y :: xs).getLast?.map id).getD p = (xs.getLast?.map id).getD y.id := by
      rw [List.getLast?_cons]
      cases xs.getLast? <;> rfl
    rw [List.cons_append, Linked, ih, Linked, hlast, and_assoc]

/-- Adding a transaction asks something of its own artifact only. -/
theorem forall_linked_append {latest : ArtifactId → TransactionId} {xs : List Transaction}
    {x : Transaction} :
    (∀ a, Linked (latest a) ((xs ++ [x]).filter fun y => y.artifact = a)) ↔
      (∀ a, Linked (latest a) (xs.filter fun y => y.artifact = a)) ∧
        x.previous = (lastOf xs x.artifact).getD (latest x.artifact) := by
  have hfilter : ∀ a, (xs ++ [x]).filter (fun y => y.artifact = a) =
      xs.filter (fun y => y.artifact = a) ++ if x.artifact = a then [x] else [] := by
    intro a
    by_cases ha : x.artifact = a <;> simp [ha]
  simp only [hfilter]
  constructor
  · intro h
    have hx := h x.artifact
    rw [if_pos rfl] at hx
    refine ⟨fun a => ?_, (linked_append.mp hx).2⟩
    have ha := h a
    by_cases hxa : x.artifact = a
    · rw [if_pos hxa] at ha
      exact (linked_append.mp ha).1
    · rwa [if_neg hxa, List.append_nil] at ha
  · rintro ⟨hxs, hp⟩ a
    by_cases hxa : x.artifact = a
    · subst hxa
      rw [if_pos rfl]
      exact linked_append.mpr ⟨hxs _, hp⟩
    · rw [if_neg hxa, List.append_nil]
      exact hxs a

def read? (c : Certificate) : Option Transaction :=
  (parse c).toOption

def names (a : ArtifactId) (c : Certificate) : Bool :=
  (read? c).any fun x => x.artifact = a

/-- That two batches are the same certificates, those of each artifact in the same order. -/
structure Reorders (pending pending' : List Certificate) : Prop where
  perm : pending.Perm pending'
  order : ∀ a, pending.filter (names a) = pending'.filter (names a)

/-- The transactions themselves, in two such orders. -/
structure Rearranges (xs ys : List Transaction) : Prop where
  perm : xs.Perm ys
  order : ∀ a, xs.filter (fun x => x.artifact = a) = ys.filter (fun x => x.artifact = a)

variable {xs ys : List Transaction} {pending pending' : List Certificate}

theorem Reorders.symm (h : Reorders pending pending') : Reorders pending' pending :=
  ⟨h.perm.symm, fun a => (h.order a).symm⟩

theorem read?_eq_some_iff {c : Certificate} {x : Transaction} :
    read? c = some x ↔ parse c = .ok x := by
  unfold read?
  cases parse c <;> simp [Except.toOption]

/-- Neighbours of different artifacts change places. -/
theorem reorders_swap {c d : Certificate} {x y : Transaction} (hx : parse c = .ok x)
    (hy : parse d = .ok y) (hne : x.artifact ≠ y.artifact) (before after : List Certificate) :
    Reorders (before ++ c :: d :: after) (before ++ d :: c :: after) where
  perm := (List.Perm.swap d c after).append_left before
  order := by
    intro a
    have hc : names a c = decide (x.artifact = a) := by
      simp [names, read?_eq_some_iff.mpr hx]
    have hd : names a d = decide (y.artifact = a) := by
      simp [names, read?_eq_some_iff.mpr hy]
    rw [List.filter_append, List.filter_append]
    congr 1
    by_cases hxa : x.artifact = a
    · have hya : y.artifact ≠ a := fun h => hne (hxa.trans h.symm)
      simp [hc, hd, hxa, hya]
    · simp [List.filter_cons, hc, hxa]

theorem map_parse_filterMap (h : ∀ c ∈ pending, ∃ x, parse c = .ok x) :
    pending.map parse = (pending.filterMap read?).map .ok := by
  induction pending with
  | nil => rfl
  | cons c pending ih =>
    obtain ⟨⟨x, hx⟩, hrest⟩ := List.forall_mem_cons.mp h
    rw [List.filterMap_cons_some (read?_eq_some_iff.mpr hx), List.map_cons, List.map_cons, hx,
      ih hrest]

theorem filterMap_read? (h : pending.map parse = xs.map .ok) : pending.filterMap read? = xs := by
  calc
    pending.filterMap read? = (pending.map parse).filterMap Except.toOption :=
      (List.filterMap_map ..).symm
    _ = (xs.map .ok).filterMap Except.toOption := by rw [h]
    _ = xs := by
      rw [List.filterMap_map]
      exact List.filterMap_some

theorem filter_filterMap_read? (pending : List Certificate) (a : ArtifactId) :
    (pending.filterMap read?).filter (fun x => x.artifact = a) =
      (pending.filter (names a)).filterMap read? := by
  rw [List.filter_filterMap, List.filterMap_filter]
  congr 1
  funext c
  cases hc : read? c with
  | none => simp [names, hc]
  | some x => simp [names, hc, Option.filter]

theorem Reorders.exists_rearranges (h : Reorders pending pending')
    (hx : pending.map parse = xs.map .ok) :
    ∃ ys, pending'.map parse = ys.map .ok ∧ Rearranges xs ys := by
  have hread : ∀ c ∈ pending', ∃ x, parse c = .ok x := by
    intro c hc
    have hm : parse c ∈ pending.map parse := List.mem_map_of_mem (h.perm.mem_iff.mpr hc)
    rw [hx] at hm
    obtain ⟨x, _, hparse⟩ := List.mem_map.mp hm
    exact ⟨x, hparse.symm⟩
  refine ⟨pending'.filterMap read?, map_parse_filterMap hread, ?_, fun a => ?_⟩
  · rw [← filterMap_read? hx]
    exact h.perm.filterMap read?
  · rw [← filterMap_read? hx, filter_filterMap_read?, filter_filterMap_read?, h.order]

end Transaction

namespace TransactionLog

open Transaction

variable {log more : TransactionLog} {block : BlockId} {xs ys : List Transaction}
variable {pending pending' : List Certificate} {e f : LogEntry}

theorem extends_append_map_iff {x : Transaction} :
    Extends (log ++ xs.map (LogEntry.mk block)) x ↔
      (log.found? x.id = none ∧ x.id ∉ xs.map Transaction.id) ∧
        x.previous = (lastOf xs x.artifact).getD (log.latest x.artifact) := by
  have hfound : found? (log ++ xs.map (LogEntry.mk block)) x.id = none ↔
      log.found? x.id = none ∧ x.id ∉ xs.map Transaction.id := found?_append_map_eq_none_iff
  rw [← hfound, ← latest_append_map log block]
  exact ⟨fun h => ⟨h.fresh, h.latest.symm⟩, fun h => extends_of_latest h.1 h.2.symm⟩

/-- A batch extends a log where its transactions are new and those of each artifact are linked, from
the latest one of the log on. -/
theorem extendsAll_iff :
    log.ExtendsAll block xs ↔
      (xs.map Transaction.id).Nodup ∧ (∀ x ∈ xs, log.found? x.id = none) ∧
        ∀ a, Linked (log.latest a) (xs.filter fun x => x.artifact = a) := by
  induction xs using List.reverseRecOn with
  | nil => simp [ExtendsAll, Linked]
  | append_singleton xs x ih =>
    have hids : ((xs ++ [x]).map Transaction.id).Nodup ↔
        x.id ∉ xs.map Transaction.id ∧ (xs.map Transaction.id).Nodup := by
      rw [List.map_append, List.map_singleton, ← List.concat_eq_append, List.nodup_concat]
    rw [extendsAll_append, ih, extends_append_map_iff, forall_linked_append, hids,
      List.forall_mem_append, List.forall_mem_singleton]
    constructor
    · rintro ⟨⟨hn, hf, hl⟩, ⟨hx, hnew⟩, hp⟩
      exact ⟨⟨hnew, hn⟩, ⟨hf, hx⟩, hl, hp⟩
    · rintro ⟨⟨hnew, hn⟩, ⟨hf, hx⟩, hl, hp⟩
      exact ⟨⟨hn, hf, hl⟩, ⟨hx, hnew⟩, hp⟩

theorem extendsAll_rearranges (h : Rearranges xs ys) (hx : log.ExtendsAll block xs) :
    log.ExtendsAll block ys := by
  obtain ⟨hnodup, hfresh, hlinked⟩ := extendsAll_iff.mp hx
  refine extendsAll_iff.mpr ⟨?_, ?_, ?_⟩
  · exact (h.perm.map Transaction.id).nodup_iff.mp hnodup
  · intro y hy
    exact hfresh y (h.perm.mem_iff.mpr hy)
  · intro a
    rw [← h.order a]
    exact hlinked a

theorem Valid.recordAll (h : log.Valid) (hr : log.recordAll block pending = .ok more) :
    more.Valid := by
  induction pending generalizing log with
  | nil =>
    cases hr
    exact h
  | cons c pending ih =>
    rw [TransactionLog.recordAll, List.foldlM_cons] at hr
    obtain ⟨done, hc, hr⟩ := bind_eq_ok_iff.mp hr
    obtain ⟨x, _, hx⟩ := bind_eq_ok_iff.mp hc
    exact ih (h.record hx) hr

/-! What is read off a log does not depend on the order of different artifacts. -/

structure Reorders (log more : TransactionLog) : Prop where
  perm : log.Perm more
  of : ∀ a, log.of a = more.of a

theorem reorders_append (log : TransactionLog) (block : BlockId) (h : Rearranges xs ys) :
    Reorders (log ++ xs.map (LogEntry.mk block)) (log ++ ys.map (LogEntry.mk block)) where
  perm := (h.perm.map (LogEntry.mk block)).append_left log
  of := by
    intro a
    have hof : ∀ zs : List Transaction, of (zs.map (LogEntry.mk block)) a =
        (zs.filter fun z => z.artifact = a).map (LogEntry.mk block) := by
      intro zs
      rw [of, List.filter_map]
      rfl
    have hsplit : ∀ rest : TransactionLog, of (log ++ rest) a = log.of a ++ rest.of a :=
      fun rest => List.filter_append ..
    rw [hsplit, hsplit, hof, hof, h.order a]

/-- A batch that is recorded is also recorded in another order. -/
theorem recordAll_reorders (h : Transaction.Reorders pending pending')
    (hr : log.recordAll block pending = .ok more) :
    ∃ middle, log.recordAll block pending' = .ok middle ∧ more.Reorders middle := by
  obtain ⟨xs, hread, hall, rfl⟩ := recordAll_eq_ok_iff.mp hr
  obtain ⟨ys, hread', hxs⟩ := h.exists_rearranges hread
  have hall' : log.ExtendsAll block ys := extendsAll_rearranges hxs hall
  exact ⟨_, recordAll_eq_ok_iff.mpr ⟨ys, hread', hall', rfl⟩, reorders_append log block hxs⟩

/-- A transaction is declared by at most one other. -/
theorem Valid.eq_of_declares (h : log.Valid) (he : e ∈ log) (hf : f ∈ log)
    (hp : e.previous = f.previous) (hn : e.previous ≠ .nil) : e = f := by
  have hdeclared : ∀ g ∈ log, g.previous ≠ .nil → ∃ d ∈ log.of g.artifact, d.id = g.previous := by
    intro g hg hne
    have hm : g.previous ∈ (log.of g.artifact).map LogEntry.previous ++ [log.latest g.artifact] :=
      List.mem_append_left _ (List.mem_map_of_mem (mem_of_iff.mpr ⟨hg, rfl⟩))
    rw [h.map_previous_of g.artifact] at hm
    rcases List.mem_cons.mp hm with hnil | hid
    · exact absurd hnil hne
    · exact List.mem_map.mp hid
  obtain ⟨d, hd, hdid⟩ := hdeclared e he hn
  obtain ⟨d', hd', hdid'⟩ := hdeclared f hf (hp ▸ hn)
  obtain ⟨hdm, hda⟩ := mem_of_iff.mp hd
  obtain ⟨hdm', hda'⟩ := mem_of_iff.mp hd'
  have hsame : d = d' := h.eq_of_id_eq hdm hdm' (hdid.trans (hp.trans hdid'.symm))
  have hartifact : e.artifact = f.artifact := by rw [← hda, hsame, hda']
  have hone := h.eq_iff (a := e.artifact) (p := e.previous)
  have hnot : e.previous = .nil → .nil ∈ (log.of e.artifact).map LogEntry.id →
      log.latest e.artifact = .nil := fun hnil => absurd hnil hn
  exact hone.mpr hnot e (mem_of_iff.mpr ⟨he, rfl⟩) f (mem_of_iff.mpr ⟨hf, hartifact.symm⟩) rfl
    hp.symm

theorem Valid.found?_eq_of_perm (h : log.Valid) (hp : log.Perm more)
    (id : TransactionId) : log.found? id = more.found? id := by
  cases hf : more.found? id with
  | none =>
    rw [found?_eq_none_iff] at hf ⊢
    intro e he
    exact hf e (hp.mem_iff.mp he)
  | some e =>
    obtain ⟨he, rfl⟩ := found?_eq_some hf
    exact h.found?_of_mem (hp.mem_iff.mpr he)

theorem getLast?_eq_of_perm (hp : log.Perm more) (hone : ∀ e ∈ log, ∀ f ∈ log, e = f) :
    log.getLast? = more.getLast? := by
  cases he : more.getLast? with
  | none =>
    rw [List.getLast?_eq_none_iff] at he ⊢
    rw [he] at hp
    exact hp.eq_nil
  | some e =>
    have hem : e ∈ log := hp.mem_iff.mpr (List.mem_of_getLast? he)
    cases hf : log.getLast? with
    | none =>
      rw [List.getLast?_eq_none_iff.mp hf] at hem
      cases hem
    | some f => rw [hone f (List.mem_of_getLast? hf) e hem]

theorem Valid.next_eq_of_perm (h : log.Valid) (hp : log.Perm more) (id : TransactionId) :
    log.next id = more.next id := by
  by_cases hid : id = .nil
  · rw [next, next, if_pos hid, if_pos hid]
  · have hf : (log.filter fun e => e.previous = id).Perm (more.filter fun e => e.previous = id) :=
      hp.filter _
    have hlast : (log.filter fun e => e.previous = id).getLast? =
        (more.filter fun e => e.previous = id).getLast? := by
      have hone : ∀ e ∈ log.filter (fun e => e.previous = id),
          ∀ f ∈ log.filter (fun e => e.previous = id), e = f := by
        intro e he f hf
        obtain ⟨hem, hep⟩ := List.mem_filter.mp he
        obtain ⟨hfm, hfp⟩ := List.mem_filter.mp hf
        have hep : e.previous = id := by simpa using hep
        have hfp : f.previous = id := by simpa using hfp
        exact h.eq_of_declares hem hfm (hep.trans hfp.symm) (hep ▸ hid)
      exact getLast?_eq_of_perm hf hone
    rw [next, next, if_neg hid, if_neg hid, hlast]

theorem Reorders.transaction? (hr : log.Reorders more) (h : log.Valid) (id : TransactionId) :
    log.transaction? id = more.transaction? id := by
  rw [TransactionLog.transaction?, TransactionLog.transaction?, h.found?_eq_of_perm hr.perm,
    h.next_eq_of_perm hr.perm]

theorem Reorders.artifact? (hr : log.Reorders more) (a : ArtifactId) :
    log.artifact? a = more.artifact? a := by
  rw [TransactionLog.artifact?, TransactionLog.artifact?, hr.of a]

end TransactionLog

namespace Tables

variable {t : Tables} {log more : TransactionLog}

theorem Indexes.reorders (h : t.Indexes log) (hr : log.Reorders more) (hm : more.Valid) :
    t.Indexes more where
  valid := hm
  small := by
    intro e he
    exact h.small e (hr.perm.mem_iff.mpr he)
  transactions := by
    intro id
    rw [h.transactions, hr.transaction? h.valid]
  artifacts := by
    intro a
    rw [h.artifacts, hr.artifact?]
  keys := h.keys

end Tables

namespace Sample

def otherArtifact : ArtifactId :=
  ⟨.ofNat 16 20⟩

/-- An unsigned transaction that starts the other artifact. -/
def startingOther (id : TransactionId) : Transaction :=
  { starting id with
    certificate := .ofBytes (FieldList.written .short
      [CertificateType.field ⟨0x0100⟩, Tag.transactionId.identifier id,
        Tag.artifactId.identifier otherArtifact])
    artifact := otherArtifact }

def interleaved : List Transaction :=
  [starting ⟨.ofNat 16 4⟩, startingOther ⟨.ofNat 16 6⟩, following ⟨.ofNat 16 5⟩ ⟨.ofNat 16 4⟩]

def regrouped : List Transaction :=
  [startingOther ⟨.ofNat 16 6⟩, starting ⟨.ofNat 16 4⟩, following ⟨.ofNat 16 5⟩ ⟨.ofNat 16 4⟩]

theorem reorders_interleaved :
    Transaction.Reorders (interleaved.map Transaction.certificate)
      (regrouped.map Transaction.certificate) := by
  have hstarting : Transaction.parse (starting ⟨.ofNat 16 4⟩).certificate =
      .ok (starting ⟨.ofNat 16 4⟩) := by decide +kernel
  have hother : Transaction.parse (startingOther ⟨.ofNat 16 6⟩).certificate =
      .ok (startingOther ⟨.ofNat 16 6⟩) := by decide +kernel
  exact Transaction.reorders_swap hstarting hother (by decide) [] _

end Sample

namespace Store

/-- That one append succeeds exactly where the other does, and leaves the same tables then, apart
from block identifiers that `R` relates. -/
structure Commutes (R : BlockId → BlockId → Prop) (one other : Except StoreError Block × Store) :
    Prop where
  success : (∃ b, one.1 = .ok b) ↔ ∃ b, other.1 = .ok b
  tables : (∃ b, one.1 = .ok b) → one.2.tables.Renamed R other.2.tables

variable {s : Store} {log : TransactionLog} {fresh fresh' : BlockId} {now now' : UInt64}
variable {pending pending' : List Certificate}

theorem commutes (h : s.tables.Indexes log) (hr : Transaction.Reorders pending pending')
    (hs : s.signer.Seals s.tables fresh now pending)
    (hs' : s.signer.Seals s.tables fresh' now' pending') :
    Commutes (BlockId.Renamed [fresh] [fresh']) (s.append fresh now pending)
      (s.append fresh' now' pending') := by
  have hone := append_concur h hs
  have hother := append_concur h hs'
  have hlog := TransactionLog.renamed_refl (R := BlockId.Renamed [fresh] [fresh'])
    (fun _ => .inl rfl) log
  have hblock : BlockId.Renamed [fresh] [fresh'] fresh fresh' := .inr ⟨by simp, by simp⟩
  have hrename := hlog.recordAll hblock pending'
  refine ⟨?_, ?_⟩
  · rw [hone.exists_ok_iff, hother.exists_ok_iff, ← hrename.exists_ok_iff]
    constructor
    · rintro ⟨more, hmore⟩
      obtain ⟨middle, hmiddle, _⟩ := TransactionLog.recordAll_reorders hr hmore
      exact ⟨middle, hmiddle⟩
    · rintro ⟨middle, hmiddle⟩
      obtain ⟨more, hmore, _⟩ := TransactionLog.recordAll_reorders hr.symm hmiddle
      exact ⟨more, hmore⟩
  · rintro ⟨b, hb⟩
    obtain ⟨more, hmore, hi⟩ := hone.exists_right hb
    obtain ⟨middle, hmiddle, hreorders⟩ := TransactionLog.recordAll_reorders hr hmore
    obtain ⟨more', hmore', hrenamed⟩ := hrename.exists_right hmiddle
    obtain ⟨_, _, hi'⟩ := hother.exists_left hmore'
    have hmiddle' := hi.reorders hreorders (h.valid.recordAll hmiddle)
    exact hmiddle'.renamed hi' hrenamed

/-- After every run, transactions of different artifacts may change places. -/
theorem run_commutes (signer : BlockSigner) (earlier : List StoreCall) (fresh fresh' : BlockId)
    (now now' : UInt64) (pending pending' : List Certificate)
    (hr : Transaction.Reorders pending pending')
    (hs : signer.Seals ((start signer).run earlier).tables fresh now pending)
    (hs' : signer.Seals ((start signer).run earlier).tables fresh' now' pending') :
    Commutes (BlockId.Renamed [fresh] [fresh'])
      (((start signer).run earlier).append fresh now pending)
      (((start signer).run earlier).append fresh' now' pending') := by
  have hsigner : ((start signer).run earlier).signer = signer := run_signer ..
  apply commutes (run_start_indexes signer earlier) hr
  · rwa [hsigner]
  · rwa [hsigner]

/-- A transaction of another artifact moves before two that are linked. -/
theorem commutes_interleaved :
    (∃ b, (((start Sample.signer).run []).append ⟨.ofNat 16 3⟩ 0
      (Sample.interleaved.map Transaction.certificate)).1 = .ok b) ∧
    Commutes (BlockId.Renamed [⟨.ofNat 16 3⟩] [⟨.ofNat 16 9⟩])
      (((start Sample.signer).run []).append ⟨.ofNat 16 3⟩ 0
        (Sample.interleaved.map Transaction.certificate))
      (((start Sample.signer).run []).append ⟨.ofNat 16 9⟩ 0
        (Sample.regrouped.map Transaction.certificate)) := by
  have hread : (start Sample.signer).tables.ReadsHead := ⟨none, by decide +kernel⟩
  refine ⟨isOk_iff.mp (by decide +kernel), run_commutes _ _ _ _ _ _ _ _ ?_ ?_ ?_⟩
  · exact Sample.reorders_interleaved
  · exact Sample.signs_signer.seals ⟨by decide, by decide +kernel⟩ hread _ _
  · exact Sample.signs_signer.seals ⟨by decide, by decide +kernel⟩ hread _ _

end Store

end SignedLedger
