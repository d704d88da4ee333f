import Mathlib.Data.List.Forall2
import SignedLedger.Proofs.BatchVerdict

/-! Logs that differ only in the blocks of their transactions. Recording never looks at a block, so
that such logs take the same transactions, refuse the others for the same reason and stay alike, and
the tables that are read off them differ only in the identifiers of blocks. -/

namespace SignedLedger

/-- Two computations that succeed with results that `R` relates, or fail with the same error. -/
inductive Concur {ε α β : Type} (R : α → β → Prop) : Except ε α → Except ε β → Prop
  | ok {a : α} {b : β} (h : R a b) : Concur R (.ok a) (.ok b)
  | error (e : ε) : Concur R (.error e) (.error e)

namespace Concur

variable {ε α β γ δ : Type} {R : α → β → Prop} {S : γ → δ → Prop}
variable {x : Except ε α} {y : Except ε β} {f : α → Except ε γ} {g : β → Except ε δ} {e : ε}

theorem bind (h : Concur R x y) (hf : ∀ a b, x = .ok a → R a b → Concur S (f a) (g b)) :
    Concur S (x >>= f) (y >>= g) := by
  cases h with
  | ok hab => exact hf _ _ rfl hab
  | error e => exact .error e

theorem exists_right {a : α} (h : Concur R x y) (hx : x = .ok a) : ∃ b, y = .ok b ∧ R a b := by
  cases h with
  | ok hab =>
    cases hx
    exact ⟨_, rfl, hab⟩
  | error e => cases hx

theorem exists_left {b : β} (h : Concur R x y) (hy : y = .ok b) : ∃ a, x = .ok a ∧ R a b := by
  cases h with
  | ok hab =>
    cases hy
    exact ⟨_, rfl, hab⟩
  | error e => cases hy

theorem exists_ok_iff (h : Concur R x y) : (∃ a, x = .ok a) ↔ ∃ b, y = .ok b := by
  cases h <;> simp

theorem eq_error_iff (h : Concur R x y) : x = .error e ↔ y = .error e := by
  cases h <;> simp

end Concur

namespace BlockId

/-- The same block, or one of `old` on the one side and one of `new` on the other. -/
def Renamed (old new : List BlockId) (b b' : BlockId) : Prop :=
  b = b' ∨ b ∈ old ∧ b' ∈ new

end BlockId

/-- Two entries for the same transaction, in blocks that `R` relates. -/
structure LogEntry.Renamed (R : BlockId → BlockId → Prop) (e f : LogEntry) : Prop where
  block : R e.block f.block
  transaction : e.transaction = f.transaction

/-- Two records that differ at most in their blocks. -/
structure RecordedTransaction.Renamed (R : BlockId → BlockId → Prop) (r r' : RecordedTransaction) :
    Prop where
  block : R r.block r'.block
  rest : r' = { r with block := r'.block }

structure Artifact.Renamed (R : BlockId → BlockId → Prop) (r r' : Artifact) : Prop where
  firstBlock : R r.firstBlock r'.firstBlock
  lastBlock : R r.lastBlock r'.lastBlock
  rest : r' = { r with firstBlock := r'.firstBlock, lastBlock := r'.lastBlock }

/-- That two entries hold records which `S` relates, or that there is neither. -/
def Tables.EntriesRel {α : Type} (encode : α → Bytes) (S : α → α → Prop) :
    Option Bytes → Option Bytes → Prop :=
  Option.Rel fun v w => ∃ r r', v = encode r ∧ w = encode r' ∧ S r r'

/-- That the tables of transactions and artifacts have the same keys, with records that differ at
most in their blocks. -/
structure Tables.Renamed (R : BlockId → BlockId → Prop) (t u : Tables) : Prop where
  transactions : ∀ key, EntriesRel RecordedTransaction.encode (RecordedTransaction.Renamed R)
    (t.get? .transactions key) (u.get? .transactions key)
  artifacts : ∀ key, EntriesRel Artifact.encode (Artifact.Renamed R)
    (t.get? .artifacts key) (u.get? .artifacts key)

namespace TransactionLog

def Renamed (R : BlockId → BlockId → Prop) (log more : TransactionLog) : Prop :=
  List.Forall₂ (LogEntry.Renamed R) log more

variable {R : BlockId → BlockId → Prop} {log more log' more' : TransactionLog} {e f : LogEntry}
variable {x : Transaction} {id : TransactionId} {a : ArtifactId} {block block' : BlockId}

theorem renamed_refl (hR : ∀ b, R b b) (log : TransactionLog) : log.Renamed R log :=
  List.forall₂_same.mpr fun _ _ => ⟨hR _, rfl⟩

theorem Renamed.append (h : log.Renamed R more) (h' : log'.Renamed R more') :
    Renamed R (log ++ log') (more ++ more') :=
  List.rel_append h h'

theorem renamed_map (hR : R block block') (xs : List Transaction) :
    Renamed R (xs.map (LogEntry.mk block)) (xs.map (LogEntry.mk block')) := by
  rw [Renamed, List.forall₂_map_left_iff, List.forall₂_map_right_iff]
  exact List.forall₂_same.mpr fun _ _ => ⟨hR, rfl⟩

/-! Look-ups choose an entry by its transaction. -/

theorem Renamed.filter (h : log.Renamed R more) (p : Transaction → Bool) :
    Renamed R (log.filter fun e => p e.transaction) (more.filter fun e => p e.transaction) := by
  apply List.rel_filter _ h
  rintro e f ⟨_, hx⟩
  simp only [hx]

theorem Renamed.head? (h : log.Renamed R more) :
    Option.Rel (LogEntry.Renamed R) log.head? more.head? := by
  cases h with
  | nil => exact .none
  | cons he _ => exact .some he

theorem Renamed.getLast? (h : log.Renamed R more) :
    Option.Rel (LogEntry.Renamed R) log.getLast? more.getLast? := by
  have hr : Renamed R log.reverse more.reverse := List.rel_reverse h
  simpa using hr.head?

theorem Renamed.found? (h : log.Renamed R more) (id : TransactionId) :
    Option.Rel (LogEntry.Renamed R) (log.found? id) (more.found? id) := by
  have hf := (h.filter fun x => x.id = id).head?
  rwa [List.head?_filter, List.head?_filter] at hf

theorem Renamed.of (h : log.Renamed R more) (a : ArtifactId) :
    Renamed R (log.of a) (more.of a) :=
  h.filter fun x => x.artifact = a

theorem map_id_eq {o o' : Option LogEntry} (h : Option.Rel (LogEntry.Renamed R) o o') :
    o.map LogEntry.id = o'.map LogEntry.id := by
  cases h with
  | none => rfl
  | some he => exact congrArg (fun x : Transaction => some x.id) he.transaction

theorem Renamed.latest (h : log.Renamed R more) (a : ArtifactId) :
    log.latest a = more.latest a := by
  rw [TransactionLog.latest, TransactionLog.latest, map_id_eq (h.of a).getLast?]

theorem Renamed.next (h : log.Renamed R more) (id : TransactionId) :
    log.next id = more.next id := by
  have hlast := (h.filter fun x => x.previous = id).getLast?
  rw [TransactionLog.next, TransactionLog.next]
  exact congrArg (fun o => if id = .nil then .nil else o.getD .nil) (map_id_eq hlast)

theorem Renamed.transaction? (h : log.Renamed R more) (id : TransactionId) :
    Option.Rel (RecordedTransaction.Renamed R) (log.transaction? id) (more.transaction? id) := by
  have hf := h.found? id
  rw [TransactionLog.transaction?, TransactionLog.transaction?, h.next id]
  generalize log.found? id = o at hf ⊢
  generalize more.found? id = o' at hf ⊢
  cases hf with
  | none => exact .none
  | some he =>
    obtain ⟨hb, hx⟩ := he
    refine .some ⟨hb, ?_⟩
    simp [LogEntry.recorded, LogEntry.id, LogEntry.previous, hx]

theorem Renamed.artifact? (h : log.Renamed R more) (a : ArtifactId) :
    Option.Rel (Artifact.Renamed R) (log.artifact? a) (more.artifact? a) := by
  have hfirst := (h.of a).head?
  have hlast := (h.of a).getLast?
  unfold TransactionLog.artifact?
  generalize (log.of a).head? = o at hfirst ⊢
  generalize (more.of a).head? = o' at hfirst ⊢
  generalize (log.of a).getLast? = l at hlast ⊢
  generalize (more.of a).getLast? = l' at hlast ⊢
  cases hfirst with
  | none => exact .none
  | some he =>
    cases hlast with
    | none => exact .none
    | some hl =>
      refine .some ⟨he.block, hl.block, ?_⟩
      simp [LogEntry.id, he.transaction, hl.transaction]

/-! Recording. -/

theorem Renamed.found?_eq_none_iff (h : log.Renamed R more) (id : TransactionId) :
    log.found? id = none ↔ more.found? id = none := by
  have hf := h.found? id
  generalize log.found? id = o at hf ⊢
  generalize more.found? id = o' at hf ⊢
  cases hf <;> simp

theorem Renamed.extends (h : log.Renamed R more) (hx : log.Extends x) : more.Extends x where
  fresh := (h.found?_eq_none_iff x.id).mp hx.fresh
  previous := fun hp hn => hx.previous hp ((h.found?_eq_none_iff x.previous).mpr hn)
  latest := (h.latest x.artifact).symm.trans hx.latest

/-- One transaction is recorded in both logs, or refused by both. -/
theorem Renamed.record (h : log.Renamed R more) (hR : R block block') (x : Transaction) :
    Concur (Renamed R) (log.record block x) (more.record block' x) := by
  cases hr : log.record block x with
  | ok log' =>
    obtain ⟨he, rfl⟩ := record_eq_ok_iff.mp hr
    rw [record_eq_ok_iff.mpr ⟨h.extends he, rfl⟩]
    exact .ok (h.append (renamed_map hR [x]))
  | error e =>
    have hr' : more.record block' x = .error e := by
      rw [record_eq_error_iff] at hr ⊢
      simpa only [ne_eq, h.found?_eq_none_iff, h.latest] using hr
    rw [hr']
    exact .error e

theorem Renamed.recordCertificate (h : log.Renamed R more) (hR : R block block') (c : Certificate) :
    Concur (Renamed R) (log.recordCertificate block c) (more.recordCertificate block' c) := by
  rw [TransactionLog.recordCertificate, TransactionLog.recordCertificate]
  cases Transaction.parse c with
  | error cause => exact .error _
  | ok x => exact h.record hR x

/-- A batch is recorded in both logs, which stay alike, or fails in both with the same error. -/
theorem Renamed.recordAll (h : log.Renamed R more) (hR : R block block')
    (pending : List Certificate) :
    Concur (Renamed R) (log.recordAll block pending) (more.recordAll block' pending) := by
  induction pending generalizing log more with
  | nil => exact .ok h
  | cons c pending ih =>
    rw [TransactionLog.recordAll, TransactionLog.recordAll, List.foldlM_cons, List.foldlM_cons]
    exact (h.recordCertificate hR c).bind fun _ _ _ hmore => ih hmore

end TransactionLog

namespace Tables

variable {R : BlockId → BlockId → Prop} {t u : Tables} {log more : TransactionLog}
variable {s : BlockSigner} {fresh : BlockId} {now : UInt64} {pending : List Certificate}

theorem entriesRel_map {α : Type} {S : α → α → Prop} {encode : α → Bytes} {o o' : Option α}
    (h : Option.Rel S o o') : EntriesRel encode S (o.map encode) (o'.map encode) := by
  cases h with
  | none => exact .none
  | some hr => exact .some ⟨_, _, rfl, rfl, hr⟩

theorem Indexes.renamed (ht : t.Indexes log) (hu : u.Indexes more) (h : log.Renamed R more) :
    t.Renamed R u where
  transactions := by
    intro key
    by_cases hk : key.length = 16
    · obtain ⟨id, rfl⟩ := Identifier.exists_bytes_eq .transaction hk
      rw [ht.transactions, hu.transactions]
      exact entriesRel_map (h.transaction? id)
    · rw [(ht.keys key hk).1, (hu.keys key hk).1]
      exact .none
  artifacts := by
    intro key
    by_cases hk : key.length = 16
    · obtain ⟨a, rfl⟩ := Identifier.exists_bytes_eq .artifact hk
      rw [ht.artifacts, hu.artifacts]
      exact entriesRel_map (h.artifact? a)
    · rw [(ht.keys key hk).2, (hu.keys key hk).2]
      exact .none

/-- Once its block can be signed, a batch is appended to the tables as it is recorded in the log. -/
theorem Indexes.append_concur (h : t.Indexes log) (hs : s.Seals t fresh now pending) :
    Concur (fun r more => r.2.Indexes more) (append s fresh now pending t)
      (log.recordAll fresh pending) := by
  obtain ⟨previous, v, c, hp, hc⟩ := hs
  have hsmall : ∀ d ∈ pending, d.visible < 2 ^ 64 := fun d hd =>
    Nat.lt_of_le_of_lt ((BlockSigner.certifies_of_certificate hc).visible_le hd) (by decide)
  have hr := (headOrRoot_indexes h hp).recordAll fresh hsmall
  have hheader : s.certificate now ⟨fresh, previous.id, previous.certificate.digest s.suite,
      previous.height + 1⟩ pending = .ok c := hc
  simp only [append, hp, ok_bind, hheader, mapError_ok]
  generalize log.recordAll fresh pending = r at hr ⊢
  generalize v.recordAll fresh pending = r' at hr ⊢
  cases hr with
  | ok hi => exact .ok (hi.congr rfl rfl)
  | error e => exact .error e

end Tables

namespace Store

variable {s : Store} {log : TransactionLog} {fresh : BlockId} {now : UInt64}
variable {pending : List Certificate} {e : StoreError}

theorem append_concur (h : s.tables.Indexes log)
    (hs : s.signer.Seals s.tables fresh now pending) :
    Concur (fun _ more => (s.append fresh now pending).2.tables.Indexes more)
      (s.append fresh now pending).1 (log.recordAll fresh pending) := by
  have hc := h.append_concur hs
  rw [append, write]
  generalize Tables.append s.signer fresh now pending s.tables = r at hc ⊢
  generalize log.recordAll fresh pending = r' at hc ⊢
  cases hc with
  | ok hi => exact .ok hi
  | error e => exact .error e

theorem append_eq_error_iff_refuses (h : s.tables.Indexes log)
    (hs : s.signer.Seals s.tables fresh now pending) :
    (s.append fresh now pending).1 = .error e ↔ s.tables.Refuses pending e := by
  rw [(append_concur h hs).eq_error_iff, h.refuses_iff fresh]

theorem exists_append_eq_ok_iff_accepts (h : s.tables.Indexes log)
    (hs : s.signer.Seals s.tables fresh now pending) :
    (∃ b, (s.append fresh now pending).1 = .ok b) ↔ ∃ xs, s.tables.Accepts pending xs := by
  simp only [(append_concur h hs).exists_ok_iff, h.accepts_iff fresh,
    TransactionLog.recordAll_eq_ok_iff]
  constructor
  · rintro ⟨_, xs, hread, hall, _⟩
    exact ⟨xs, hread, hall⟩
  · rintro ⟨xs, hread, hall⟩
    exact ⟨_, xs, hread, hall, rfl⟩

end Store

end SignedLedger
