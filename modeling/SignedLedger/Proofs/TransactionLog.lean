import Mathlib.Data.List.Nodup
import SignedLedger.Proofs.VisiblePart
import SignedLedger.Store.Record

/-! The recorded transactions in the order in which they were recorded. The records of transactions
and of artifacts are read off this log, and recording a transaction adds it at the end. The
transactions of one artifact form a chain: each of them declares the one before it. -/

namespace SignedLedger

/-- A transaction and the block that holds it. -/
structure LogEntry where
  block : BlockId
  transaction : Transaction

abbrev TransactionLog := List LogEntry

namespace LogEntry

def id (e : LogEntry) : TransactionId :=
  e.transaction.id

def artifact (e : LogEntry) : ArtifactId :=
  e.transaction.artifact

def previous (e : LogEntry) : TransactionId :=
  e.transaction.previous

/-- The record of the transaction, where `next` extends it. -/
def recorded (e : LogEntry) (next : TransactionId) : RecordedTransaction :=
  { id := e.id
    block := e.block
    previous := e.previous
    next
    certificate := e.transaction.certificate.shown }

@[simp] theorem id_mk (block : BlockId) (x : Transaction) : (LogEntry.mk block x).id = x.id := rfl

@[simp] theorem artifact_mk (block : BlockId) (x : Transaction) :
    (LogEntry.mk block x).artifact = x.artifact := rfl

@[simp] theorem previous_mk (block : BlockId) (x : Transaction) :
    (LogEntry.mk block x).previous = x.previous := rfl

end LogEntry

namespace TransactionLog

def found? (log : TransactionLog) (id : TransactionId) : Option LogEntry :=
  log.find? fun e => e.id = id

def of (log : TransactionLog) (a : ArtifactId) : TransactionLog :=
  log.filter fun e => e.artifact = a

/-- The last transaction of an artifact, zero where there is none. -/
def latest (log : TransactionLog) (a : ArtifactId) : TransactionId :=
  ((log.of a).getLast?.map LogEntry.id).getD .nil

/-- The last transaction that declares `id` as the one before it. None extends the zero identifier.
-/
def next (log : TransactionLog) (id : TransactionId) : TransactionId :=
  if id = .nil then .nil
  else ((log.filter fun e => e.previous = id).getLast?.map LogEntry.id).getD .nil

def transaction? (log : TransactionLog) (id : TransactionId) : Option RecordedTransaction :=
  (log.found? id).map fun e => e.recorded (log.next id)

def artifact? (log : TransactionLog) (a : ArtifactId) : Option Artifact :=
  match (log.of a).head?, (log.of a).getLast? with
  | some first, some last =>
    some
      { id := a
        firstBlock := first.block
        first := first.id
        lastBlock := last.block
        last := last.id }
  | _, _ => none

def artifactWith (log : TransactionLog) (e : LogEntry) : Artifact :=
  match log.artifact? e.artifact with
  | some old => { old with lastBlock := e.block, last := e.id }
  | none => .start e.artifact e.block e.id

def extended? (log : TransactionLog) (x : Transaction) : Option RecordedTransaction :=
  if x.previous = .nil then none else log.transaction? x.previous

/-- Adds a transaction of block `block`, unless it is there already or does not extend its artifact.
-/
def record (block : BlockId) (log : TransactionLog) (x : Transaction) :
    Except StoreError TransactionLog :=
  if (log.found? x.id).isSome then .error (.duplicateTransaction x.id)
  else if x.previous ≠ .nil ∧ log.found? x.previous = none then
    .error (.missingPrevious x.id x.previous)
  else if log.latest x.artifact ≠ x.previous then
    .error (.artifactConflict x.artifact (log.latest x.artifact) x.previous)
  else .ok (log ++ [⟨block, x⟩])

def recordCertificate (block : BlockId) (log : TransactionLog) (c : Certificate) :
    Except StoreError TransactionLog := do
  let x ← (Transaction.parse c).mapError .invalidTransaction
  log.record block x

def recordAll (block : BlockId) (log : TransactionLog) (pending : List Certificate) :
    Except StoreError TransactionLog :=
  pending.foldlM (recordCertificate block) log

structure Extends (log : TransactionLog) (x : Transaction) : Prop where
  fresh : log.found? x.id = none
  previous : x.previous ≠ .nil → log.found? x.previous ≠ none
  latest : log.latest x.artifact = x.previous

/-- The logs that recording produces. -/
inductive Valid : TransactionLog → Prop
  | nil : Valid []
  | snoc {log : TransactionLog} {e : LogEntry} (h : Valid log) (he : log.Extends e.transaction) :
    Valid (log ++ [e])

def Parsed (log : TransactionLog) : Prop :=
  ∀ e ∈ log, Transaction.parse e.transaction.certificate = .ok e.transaction

variable {log more : TransactionLog} {e : LogEntry} {x : Transaction} {block : BlockId}

theorem record_eq_ok_iff :
    log.record block x = .ok more ↔ log.Extends x ∧ more = log ++ [⟨block, x⟩] := by
  unfold record
  split
  · rename_i hd
    simp only [reduceCtorEq, false_iff]
    rintro ⟨he, _⟩
    simp [he.fresh] at hd
  split
  · rename_i hp
    simp only [reduceCtorEq, false_iff]
    rintro ⟨he, _⟩
    exact he.previous hp.1 hp.2
  split
  · rename_i hl
    simp only [reduceCtorEq, false_iff]
    rintro ⟨he, _⟩
    exact hl he.latest
  · rename_i hd hp hl
    have he : log.Extends x := by
      refine ⟨by simpa using hd, fun hn h => hp ⟨hn, h⟩, by simpa using hl⟩
    simp [he, eq_comm]

theorem Valid.record (h : log.Valid) (hr : log.record block x = .ok more) : more.Valid := by
  obtain ⟨he, rfl⟩ := record_eq_ok_iff.mp hr
  exact h.snoc he

/-! Look-ups after an entry is added. -/

theorem found?_append (id : TransactionId) :
    found? (log ++ [e]) id = (log.found? id).or (if e.id = id then some e else none) := by
  by_cases he : e.id = id <;> simp [found?, he]

theorem mem_of_iff {a : ArtifactId} : e ∈ log.of a ↔ e ∈ log ∧ e.artifact = a := by
  simp [of]

theorem of_append (a : ArtifactId) :
    of (log ++ [e]) a = if e.artifact = a then log.of a ++ [e] else log.of a := by
  by_cases he : e.artifact = a <;> simp [of, he]

theorem latest_append (a : ArtifactId) :
    latest (log ++ [e]) a = if e.artifact = a then e.id else log.latest a := by
  by_cases he : e.artifact = a <;> simp [latest, of_append, he]

theorem next_append (id : TransactionId) :
    next (log ++ [e]) id = if id ≠ .nil ∧ e.previous = id then e.id else log.next id := by
  by_cases hn : id = .nil
  · simp [next, hn]
  · by_cases he : e.previous = id <;> simp [next, hn, he]

theorem artifact?_eq_none_iff {a : ArtifactId} : log.artifact? a = none ↔ log.of a = [] := by
  cases h : log.of a with
  | nil => simp [artifact?, h]
  | cons e rest => simp [artifact?, h, List.getLast?_cons]

theorem artifact?_append (a : ArtifactId) :
    artifact? (log ++ [e]) a =
      if a = e.artifact then some (log.artifactWith e) else log.artifact? a := by
  by_cases he : a = e.artifact
  · subst he
    cases h : log.of e.artifact with
    | nil => simp [artifact?, artifactWith, of_append, h, Artifact.start]
    | cons f rest => simp [artifact?, artifactWith, of_append, h, List.getLast?_cons]
  · simp [artifact?, of_append, he, Ne.symm he]

theorem latest_eq (a : ArtifactId) :
    log.latest a = ((log.artifact? a).map Artifact.last).getD .nil := by
  cases h : log.of a with
  | nil => simp [latest, artifact?, h]
  | cons f rest => simp [latest, artifact?, h, List.getLast?_cons]

theorem artifact?_id {a : ArtifactId} {r : Artifact} (h : log.artifact? a = some r) : r.id = a := by
  unfold artifact? at h
  split at h
  · cases h
    rfl
  · cases h

theorem artifactWith_id : (log.artifactWith e).id = e.artifact := by
  unfold artifactWith
  split
  · rename_i old h
    have hid : old.id = e.artifact := artifact?_id h
    exact hid
  · rfl

theorem found?_eq_none_iff {id : TransactionId} : log.found? id = none ↔ ∀ e ∈ log, e.id ≠ id := by
  simp [found?]

theorem found?_eq_some {id : TransactionId} (h : log.found? id = some e) : e ∈ log ∧ e.id = id :=
  ⟨List.mem_of_find?_eq_some h, by simpa using List.find?_some h⟩

theorem transaction?_id {id : TransactionId} {r : RecordedTransaction}
    (h : log.transaction? id = some r) : r.id = id := by
  obtain ⟨e, he, rfl⟩ := Option.map_eq_some_iff.mp h
  exact (found?_eq_some he).2

theorem extended?_of_ne_nil (hp : x.previous ≠ .nil) :
    log.extended? x = log.transaction? x.previous := by
  simp [extended?, hp]

theorem Extends.exists_transaction (h : log.Extends x) (hp : x.previous ≠ .nil) :
    ∃ r, log.transaction? x.previous = some r := by
  obtain ⟨e, he⟩ := Option.ne_none_iff_exists'.mp (h.previous hp)
  exact ⟨_, by rw [transaction?, he, Option.map_some]⟩

theorem Extends.previous_ne (h : log.Extends x) (hp : x.previous ≠ .nil) : x.previous ≠ x.id :=
  fun he => h.previous hp (he ▸ h.fresh)

/-! What holds of every log that recording produces. -/

theorem Valid.nodup (h : log.Valid) : (log.map LogEntry.id).Nodup := by
  induction h with
  | nil => exact List.nodup_nil
  | snoc h he ih =>
    rw [List.map_append, List.nodup_append]
    refine ⟨ih, by simp, ?_⟩
    intro i hi j hj
    obtain ⟨f, hf, rfl⟩ := List.mem_map.mp hi
    rw [List.mem_singleton.mp hj]
    exact found?_eq_none_iff.mp he.fresh f hf

theorem Valid.found?_of_mem (h : log.Valid) (he : e ∈ log) : log.found? e.id = some e := by
  cases hf : log.found? e.id with
  | none => exact absurd rfl (found?_eq_none_iff.mp hf e he)
  | some f =>
    obtain ⟨hm, hid⟩ := found?_eq_some hf
    rw [List.inj_on_of_nodup_map h.nodup hm he hid]

theorem Valid.extends_of_prefix (h : more.Valid) (hp : log ++ [e] <+: more) :
    log.Extends e.transaction := by
  induction h with
  | nil => simp at hp
  | @snoc rest last _ he ih =>
    rcases List.prefix_concat_iff.mp hp with hp | hp
    · obtain ⟨rfl, hlast⟩ := List.append_inj' hp rfl
      obtain rfl : e = last := by simpa using hlast
      exact he
    · exact ih hp

theorem Valid.previous_recorded (h : log.Valid) (he : e ∈ log) (hn : e.previous ≠ .nil) :
    ∃ f ∈ log, f.id = e.previous := by
  induction h with
  | nil => cases he
  | @snoc log last h hx ih =>
    rcases List.mem_append.mp he with he | he
    · obtain ⟨f, hf, hid⟩ := ih he
      exact ⟨f, List.mem_append_left _ hf, hid⟩
    · rw [List.mem_singleton.mp he] at hn ⊢
      obtain ⟨f, hf⟩ := Option.ne_none_iff_exists'.mp (hx.previous hn)
      obtain ⟨hm, hid⟩ := found?_eq_some hf
      exact ⟨f, List.mem_append_left _ hm, hid⟩

theorem Valid.next_eq_nil (h : log.Valid) {id : TransactionId} (hid : log.found? id = none) :
    log.next id = .nil := by
  by_cases hn : id = .nil
  · simp [next, hn]
  · have hf : log.filter (fun e => e.previous = id) = [] := by
      rw [List.filter_eq_nil_iff]
      intro e he hp
      have hp : e.previous = id := by simpa using hp
      obtain ⟨f, hf, hfid⟩ := h.previous_recorded he (hp ▸ hn)
      exact found?_eq_none_iff.mp hid f hf (hfid.trans hp)
    simp [next, hn, hf]

/-- Adding a transaction adds its record and links the record of the transaction that it extends. -/
theorem Valid.transaction?_append (h : log.Valid) (he : log.Extends e.transaction)
    (id : TransactionId) :
    transaction? (log ++ [e]) id =
      if id = e.id then some (e.recorded .nil)
      else if id = e.previous ∧ id ≠ .nil then (log.transaction? id).map ({ · with next := e.id })
      else log.transaction? id := by
  by_cases hid : id = e.id
  · subst hid
    have hfresh : log.found? e.id = none := he.fresh
    -- Nothing extends `e` yet: what is extended has been recorded before.
    have hnext : next (log ++ [e]) e.id = .nil := by
      rw [next_append, if_neg, h.next_eq_nil hfresh]
      rintro ⟨hn, hp⟩
      have hp : e.transaction.previous = e.id := hp
      exact he.previous (hp ▸ hn) (hp ▸ hfresh)
    simp [transaction?, found?_append, hfresh, hnext]
  · have hentry : found? (log ++ [e]) id = log.found? id := by
      simp [found?_append, Ne.symm hid]
    rw [if_neg hid, transaction?, hentry, next_append, transaction?]
    by_cases hp : id = e.previous ∧ id ≠ .nil
    · rw [if_pos hp, if_pos ⟨hp.2, hp.1.symm⟩, Option.map_map]
      rfl
    · rw [if_neg hp, if_neg fun hh => hp ⟨hh.2.symm, hh.1⟩]

/-- The declared transactions of an artifact and its latest one are zero and the transactions of the
artifact: each transaction declares the one before it. -/
theorem Valid.map_previous_of (h : log.Valid) (a : ArtifactId) :
    (log.of a).map LogEntry.previous ++ [log.latest a] = .nil :: (log.of a).map LogEntry.id := by
  induction h with
  | nil => rfl
  | @snoc log e h he ih =>
    by_cases hea : e.artifact = a
    · have hlatest : log.latest a = e.previous := hea ▸ he.latest
      rw [of_append, latest_append, if_pos hea, if_pos hea, List.map_append, List.map_append]
      simp only [List.map_cons, List.map_nil]
      rw [← hlatest, ih]
      rfl
    · rw [of_append, latest_append, if_neg hea, if_neg hea, ih]

end TransactionLog

end SignedLedger
