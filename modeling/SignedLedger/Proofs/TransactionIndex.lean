import SignedLedger.Proofs.RecordCodec
import SignedLedger.Proofs.TransactionLog
import SignedLedger.Store.Append

/-! The tables of transactions and artifacts as an index of the transaction log. Recording in the
tables and recording in the log accept the same transactions, refuse the others for the same reason,
and keep the tables an index of the log. -/

namespace SignedLedger

theorem Identifier.exists_bytes_eq (k : Identifier.Kind) {key : Bytes} (h : key.length = 16) :
    ∃ i : Identifier k, key = i.bytes :=
  ⟨⟨⟨key, h⟩⟩, rfl⟩

theorem LogEntry.decode_encode_recorded {e : LogEntry} (next : TransactionId)
    (h : e.transaction.certificate.visible < 2 ^ 64) :
    RecordedTransaction.decode (e.recorded next).encode = .ok (e.recorded next) := by
  have hs : (e.recorded next).certificate.visible < 2 ^ 64 := by simpa [recorded] using h
  rw [RecordedTransaction.decode_encode hs]
  simp [recorded, RecordedTransaction.shown]

namespace Tables

/-- The entries of the transaction and artifact tables are the records that are read off the log. -/
structure Indexes (t : Tables) (log : TransactionLog) : Prop where
  valid : log.Valid
  small : ∀ e ∈ log, e.transaction.certificate.visible < 2 ^ 64
  transactions :
    ∀ id, t.get? .transactions id.bytes = (log.transaction? id).map RecordedTransaction.encode
  artifacts : ∀ a, t.get? .artifacts a.bytes = (log.artifact? a).map Artifact.encode
  keys : ∀ key, key.length ≠ 16 → t.get? .transactions key = none ∧ t.get? .artifacts key = none

variable {t u : Tables} {log : TransactionLog} {block : BlockId} {x : Transaction}

theorem indexes_empty : Indexes .empty [] where
  valid := .nil
  small := by simp
  transactions := fun _ => get?_empty ..
  artifacts := fun _ => get?_empty ..
  keys := fun _ _ => ⟨get?_empty .., get?_empty ..⟩

theorem Indexes.congr (h : t.Indexes log) (ht : u.transactions = t.transactions)
    (ha : u.artifacts = t.artifacts) : u.Indexes log := by
  have hgt : ∀ key, u.get? .transactions key = t.get? .transactions key := fun key =>
    congrArg (·.get? key) ht
  have hga : ∀ key, u.get? .artifacts key = t.get? .artifacts key :=
    fun key => congrArg (·.get? key) ha
  exact ⟨h.valid, h.small, fun id => (hgt _).trans (h.transactions id),
    fun a => (hga _).trans (h.artifacts a), fun key hk => by rw [hgt, hga]; exact h.keys key hk⟩

theorem Indexes.unique (h : t.Indexes log) (h' : u.Indexes log) :
    t.transactions = u.transactions ∧ t.artifacts = u.artifacts := by
  constructor
  · apply KeyMap.ext_get?
    intro key
    by_cases hk : key.length = 16
    · obtain ⟨id, rfl⟩ := Identifier.exists_bytes_eq .transaction hk
      exact (h.transactions id).trans (h'.transactions id).symm
    · exact (h.keys key hk).1.trans (h'.keys key hk).1.symm
  · apply KeyMap.ext_get?
    intro key
    by_cases hk : key.length = 16
    · obtain ⟨a, rfl⟩ := Identifier.exists_bytes_eq .artifact hk
      exact (h.artifacts a).trans (h'.artifacts a).symm
    · exact (h.keys key hk).2.trans (h'.keys key hk).2.symm

theorem Indexes.transaction? (h : t.Indexes log) (id : TransactionId) :
    t.transaction? id = .ok (log.transaction? id) := by
  rw [Tables.transaction?, load?, h.transactions]
  cases he : log.found? id with
  | none => simp [TransactionLog.transaction?, he]
  | some e =>
    have hs := h.small e (TransactionLog.found?_eq_some he).1
    simp [TransactionLog.transaction?, he, LogEntry.decode_encode_recorded _ hs]

theorem Indexes.artifact? (h : t.Indexes log) (a : ArtifactId) :
    t.artifact? a = .ok (log.artifact? a) := by
  rw [Tables.artifact?, load?, h.artifacts]
  cases log.artifact? a with
  | none => rfl
  | some r => simp [Artifact.decode_encode]

theorem Indexes.transaction?_eq_some_iff (h : t.Indexes log) {id : TransactionId}
    {r : RecordedTransaction} :
    t.transaction? id = .ok (some r) ↔ ∃ e ∈ log, e.id = id ∧ e.recorded (log.next id) = r := by
  rw [h.transaction?, Except.ok.injEq, TransactionLog.transaction?, Option.map_eq_some_iff]
  constructor
  · rintro ⟨e, he, hr⟩
    obtain ⟨hm, hid⟩ := TransactionLog.found?_eq_some he
    exact ⟨e, hm, hid, hr⟩
  · rintro ⟨e, he, rfl, hr⟩
    exact ⟨e, h.valid.found?_of_mem he, hr⟩

theorem Indexes.isSome_get? (h : t.Indexes log) (id : TransactionId) :
    (t.get? .transactions id.bytes).isSome = (log.found? id).isSome := by
  simp [h.transactions, TransactionLog.transaction?]

@[simp] theorem get?_putTransaction (t : Tables) (r : RecordedTransaction) (table : Table)
    (key : Bytes) :
    (t.putTransaction r).get? table key =
      if table = .transactions ∧ key = r.id.bytes then some r.encode else t.get? table key :=
  get?_put ..

@[simp] theorem get?_putArtifact (t : Tables) (r : Artifact) (table : Table) (key : Bytes) :
    (t.putArtifact r).get? table key =
      if table = .artifacts ∧ key = r.id.bytes then some r.encode else t.get? table key :=
  get?_put ..

theorem Indexes.extendArtifact (h : t.Indexes log) :
    t.extendArtifact block x =
      if log.latest x.artifact ≠ x.previous then
        .error (.artifactConflict x.artifact (log.latest x.artifact) x.previous)
      else .ok (log.artifactWith ⟨block, x⟩) := by
  rw [Tables.extendArtifact, h.artifact?, log.latest_eq, TransactionLog.artifactWith,
    LogEntry.artifact_mk]
  cases hr : log.artifact? x.artifact with
  | none =>
    by_cases hp : x.previous = .nil
    · simp [hp]
    · simp [hp, Ne.symm hp]
  | some r =>
    have hid := TransactionLog.artifact?_id hr
    by_cases hp : r.last = x.previous
    · simp [hp]
    · simp [hp, hid]

theorem Indexes.previousOf (h : t.Indexes log) :
    t.previousOf x =
      if x.previous ≠ .nil ∧ log.found? x.previous = none then
        .error (.missingPrevious x.id x.previous)
      else .ok (log.extended? x) := by
  rw [Tables.previousOf, h.transaction?, TransactionLog.extended?]
  by_cases hp : x.previous = .nil
  · simp [hp]
  · cases he : log.found? x.previous <;> simp [hp, TransactionLog.transaction?, he]

/-- The tables once `x` is recorded in a block, where `r` is the artifact of `x` by then. -/
def recorded (block : BlockId) (x : Transaction) (previous : Option RecordedTransaction)
    (r : Artifact) (t : Tables) : Tables :=
  let t := t.putTransaction
    { id := x.id, block, previous := x.previous, next := .nil, certificate := x.certificate }
  let t := t.putArtifact r
  match previous with
  | some p => t.putTransaction { p with next := x.id }
  | none => t

theorem Indexes.recorded (h : t.Indexes log) (block : BlockId) (he : log.Extends x)
    (hx : x.certificate.visible < 2 ^ 64) :
    Indexes (t.recorded block x (log.extended? x) (log.artifactWith ⟨block, x⟩))
      (log ++ [⟨block, x⟩]) where
  valid := h.valid.snoc he
  small := by
    intro e hm
    rcases List.mem_append.mp hm with hm | hm
    · exact h.small e hm
    · rw [List.mem_singleton.mp hm]
      exact hx
  transactions := by
    intro id
    rw [h.valid.transaction?_append he]
    by_cases hp : x.previous = .nil
    · by_cases hx : id = x.id
      · simp [Tables.recorded, TransactionLog.extended?, hp, hx, RecordedTransaction.encode,
          sizedCertificate_shown, LogEntry.recorded]
      · simp [Tables.recorded, TransactionLog.extended?, hp, hx, Identifier.bytes_inj,
          h.transactions]
    · obtain ⟨r, hr⟩ := he.exists_transaction hp
      have hrid := TransactionLog.transaction?_id hr
      have hne := he.previous_ne hp
      rw [TransactionLog.extended?_of_ne_nil hp, hr]
      by_cases hx : id = x.id
      · simp [Tables.recorded, hrid, hx, hne.symm, Identifier.bytes_inj, RecordedTransaction.encode,
          sizedCertificate_shown, LogEntry.recorded]
      · by_cases hid : id = x.previous
        · simp [Tables.recorded, hrid, hid, hne, hp, hr]
        · simp [Tables.recorded, hrid, hx, hid, Identifier.bytes_inj, h.transactions]
  artifacts := by
    intro a
    rw [TransactionLog.artifact?_append]
    have hid : (log.artifactWith ⟨block, x⟩).id = x.artifact := TransactionLog.artifactWith_id
    cases log.extended? x <;> by_cases ha : a = x.artifact <;>
      simp [Tables.recorded, hid, ha, Identifier.bytes_inj, h.artifacts]
  keys := by
    intro key hk
    obtain ⟨ht, ha⟩ := h.keys key hk
    have hn : ∀ {k : Identifier.Kind} (i : Identifier k), key ≠ i.bytes := by
      rintro k i rfl
      exact hk i.length_bytes
    cases log.extended? x <;>
      simp [Tables.recorded, hn, ht, ha]

/-- A computation on tables ends as one on the log does: in an index of the new log, or in the same
error. -/
inductive Simulates : Except StoreError Tables → Except StoreError TransactionLog → Prop
  | ok {t : Tables} {log : TransactionLog} (h : t.Indexes log) : Simulates (.ok t) (.ok log)
  | error (e : StoreError) : Simulates (.error e) (.error e)

theorem Indexes.record (h : t.Indexes log) (block : BlockId) (hx : x.certificate.visible < 2 ^ 64) :
    Simulates (t.record block x) (log.record block x) := by
  rw [Tables.record, TransactionLog.record, h.isSome_get?, h.previousOf, h.extendArtifact]
  split
  · exact .error _
  rename_i hfresh
  split
  · exact .error _
  rename_i hprevious
  split
  · exact .error _
  rename_i hlatest
  have he : log.Extends x := by
    refine ⟨by simpa using hfresh, fun hn hh => hprevious ⟨hn, hh⟩, by simpa using hlatest⟩
  have hr := h.recorded block he hx
  cases hp : log.extended? x with
  | none =>
    rw [hp] at hr
    exact .ok hr
  | some p =>
    rw [hp] at hr
    exact .ok hr

theorem Indexes.recordCertificate (h : t.Indexes log) (block : BlockId) {c : Certificate}
    (hc : c.visible < 2 ^ 64) :
    Simulates (t.recordCertificate block c) (log.recordCertificate block c) := by
  rw [Tables.recordCertificate, TransactionLog.recordCertificate]
  cases hx : Transaction.parse c with
  | error e => exact .error _
  | ok x => exact h.record block (Transaction.certificate_of_parse hx ▸ hc)

/-- A batch is recorded in the tables as it is in the log. -/
theorem Indexes.recordAll (h : t.Indexes log) (block : BlockId) {pending : List Certificate}
    (hp : ∀ c ∈ pending, c.visible < 2 ^ 64) :
    Simulates (t.recordAll block pending) (log.recordAll block pending) := by
  induction pending generalizing t log with
  | nil => exact .ok h
  | cons c rest ih =>
    rw [Tables.recordAll, TransactionLog.recordAll, List.foldlM_cons, List.foldlM_cons]
    have hc := h.recordCertificate block (hp c List.mem_cons_self)
    generalize t.recordCertificate block c = r at hc ⊢
    generalize log.recordCertificate block c = r' at hc ⊢
    cases hc with
    | ok h' => exact ih h' fun d hd => hp d (List.mem_cons_of_mem c hd)
    | error e => exact .error e

end Tables

end SignedLedger
