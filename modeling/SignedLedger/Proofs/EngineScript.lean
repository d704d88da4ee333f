import SignedLedger.Proofs.Outcome
import SignedLedger.Proofs.StagedWrites
import SignedLedger.Store.Engine

/-! Transactions as an engine sees them: one request after the other, each of which may depend on
the replies to those before, and an outcome at the end. Both kinds of engine carry out the same script
in the same way, the one beside the committed tables and the other in them. -/

namespace SignedLedger

/-- The requests of a transaction that reads single keys and writes. -/
inductive Script (α : Type) where
  | done (outcome : Except StoreError α)
  | get (table : Table) (key : Bytes) (next : Option Bytes → Script α)
  | put (table : Table) (key value : Bytes) (rest : Script α)

def Reply.value? : Reply → Option Bytes
  | .value found => found
  | _ => none

namespace Script

variable {α β σ τ : Type}

def bind : Script α → (α → Script β) → Script β
  | .done (.ok a), next => next a
  | .done (.error e), _ => .done (.error e)
  | .get table key more, next => .get table key fun found => (more found).bind next
  | .put table key value rest, next => .put table key value (rest.bind next)

instance : Monad Script where
  pure a := .done (.ok a)
  bind := bind

def run (answer : σ → Request → Reply × σ) : Script α → σ → Except StoreError α × σ
  | .done outcome, s => (outcome, s)
  | .get table key next, s =>
    let (reply, s) := answer s (.get table key)
    (next reply.value?).run answer s
  | .put table key value rest, s => rest.run answer (answer s (.put table key value)).2

/-- The requests that are made on the way. -/
def requests (answer : σ → Request → Reply × σ) : Script α → σ → List Request
  | .done _, _ => []
  | .get table key next, s =>
    let (reply, s) := answer s (.get table key)
    .get table key :: (next reply.value?).requests answer s
  | .put table key value rest, s =>
    .put table key value :: rest.requests answer (answer s (.put table key value)).2

variable {answer : σ → Request → Reply × σ} {x : Script α} {k : α → Script β}

theorem answerAll_requests (answer : σ → Request → Reply × σ) (x : Script α) (s : σ) :
    (answerAll answer s (x.requests answer s)).2 = (x.run answer s).2 := by
  induction x generalizing s with
  | done outcome => rfl
  | get table key next ih => exact ih _ _
  | put table key value rest ih => exact ih _

theorem run_bind (s : σ) :
    (x >>= k).run answer s =
      match x.run answer s with
      | (.ok a, s') => (k a).run answer s'
      | (.error e, s') => (.error e, s') := by
  induction x generalizing s with
  | done outcome => cases outcome <;> rfl
  | get table key next ih => exact ih _ _
  | put table key value rest ih => exact ih _

theorem run_bind_of_ok {s v : σ} {a : α} (h : x.run answer s = (.ok a, v)) :
    (x >>= k).run answer s = (k a).run answer v := by
  rw [run_bind, h]

theorem run_bind_of_error {s v : σ} {e : StoreError} (h : x.run answer s = (.error e, v)) :
    (x >>= k).run answer s = (.error e, v) := by
  rw [run_bind, h]

theorem run_bind_eq_error {s u : σ} {e : StoreError} (h : (x >>= k).run answer s = (.error e, u)) :
    x.run answer s = (.error e, u) ∨
      ∃ a v, x.run answer s = (.ok a, v) ∧ (k a).run answer v = (.error e, u) := by
  rw [run_bind] at h
  split at h
  · rename_i a v hx
    exact .inr ⟨a, v, hx, h⟩
  · rename_i e' v hx
    cases h
    exact .inl hx

/-- States that answer alike lead to the same outcome, in states that answer alike. -/
theorem run_related {answer' : τ → Request → Reply × τ} {R : σ → τ → Prop}
    (get : ∀ s t table key, R s t →
      (answer s (.get table key)).1 = (answer' t (.get table key)).1 ∧
        R (answer s (.get table key)).2 (answer' t (.get table key)).2)
    (put : ∀ s t table key value, R s t →
      R (answer s (.put table key value)).2 (answer' t (.put table key value)).2)
    (x : Script α) {s : σ} {t : τ} (h : R s t) :
    (x.run answer s).1 = (x.run answer' t).1 ∧ R (x.run answer s).2 (x.run answer' t).2 := by
  induction x generalizing s t with
  | done outcome => exact ⟨rfl, h⟩
  | get table key next ih =>
    obtain ⟨hreply, hafter⟩ := get s t table key h
    simp only [run, hreply]
    exact ih _ hafter
  | put table key value rest ih => exact ih (put s t table key value h)

/-- What is staged while a script runs, over tables that stay as they are. -/
theorem run_start (x : Script α) (t : Tables) :
    (x.run Overlay.answer (.start t)).1 = (x.run Tables.answer t).1 ∧
      (x.run Overlay.answer (.start t)).2.Covers t (x.run Tables.answer t).2 := by
  refine run_related (R := fun (o : Overlay) u => o.Covers t u) ?_ ?_ x (Overlay.covers_start t)
  · intro o u table key h
    exact ⟨congrArg Reply.value (h.shows table key), h⟩
  · intro o u table key value h
    exact h.put table key value

/-- What a script has staged beside tables that are still as they were. -/
structure Leaves (x : Script α) (t : Tables) (e : StoreError) (o : Overlay) (v : Tables) : Prop
    extends o.Covers t v where
  run : x.run Overlay.answer (.start t) = (.error e, o)

theorem exists_leaves {t v : Tables} {e : StoreError}
    (h : x.run Tables.answer t = (.error e, v)) : ∃ o, x.Leaves t e o v := by
  obtain ⟨houtcome, hcovers⟩ := x.run_start t
  rw [h] at houtcome hcovers
  exact ⟨(x.run Overlay.answer (.start t)).2, hcovers, Prod.ext houtcome rfl⟩

/-! What has been written when a script fails. -/

/-- That a script only reads. -/
def Reads (x : Script α) : Prop :=
  ∀ t, (x.run Tables.answer t).2 = t

/-- That a script which fails has written nothing by then. -/
def Guarded (x : Script α) : Prop :=
  ∀ t u e, x.run Tables.answer t = (.error e, u) → u = t

theorem reads_done (outcome : Except StoreError α) : (done outcome).Reads :=
  fun _ => rfl

theorem Reads.bind (hx : x.Reads) (hk : ∀ a, (k a).Reads) : (x >>= k).Reads := by
  intro t
  have ht := hx t
  rw [run_bind]
  cases hrun : x.run Tables.answer t with
  | mk outcome u =>
    rw [hrun] at ht
    obtain rfl : u = t := ht
    cases outcome with
    | error e => rfl
    | ok a => exact hk a u

theorem Reads.guarded (hx : x.Reads) : x.Guarded := by
  intro t u e h
  have ht := hx t
  rw [h] at ht
  exact ht

/-- Reading first is safe. -/
theorem Guarded.after (hk : ∀ a, (k a).Guarded) (hx : x.Reads) : (x >>= k).Guarded := by
  intro t u e h
  have ht := hx t
  rcases run_bind_eq_error h with h | ⟨a, v, hv, h⟩
  · rw [h] at ht
    exact ht
  · rw [hv] at ht
    exact (hk a v u e h).trans ht

/-- What a script makes of tables, if it does not fail. -/
def effect (x : Script α) (t : Tables) : Except StoreError (α × Tables) :=
  match x.run Tables.answer t with
  | (.ok a, u) => .ok (a, u)
  | (.error e, _) => .error e

theorem effect_bind (x : Script α) (k : α → Script β) (t : Tables) :
    (x >>= k).effect t = x.effect t >>= fun p => (k p.1).effect p.2 := by
  simp only [effect, run_bind]
  obtain ⟨outcome, u⟩ := x.run Tables.answer t
  cases outcome <;> rfl

theorem effect_eq_ok_iff {t u : Tables} {a : α} :
    x.effect t = .ok (a, u) ↔ x.run Tables.answer t = (.ok a, u) := by
  unfold effect
  obtain ⟨outcome, v⟩ := x.run Tables.answer t
  cases outcome <;> simp

theorem effect_eq_error_iff {t : Tables} {e : StoreError} :
    x.effect t = .error e ↔ ∃ u, x.run Tables.answer t = (.error e, u) := by
  unfold effect
  obtain ⟨outcome, v⟩ := x.run Tables.answer t
  cases outcome <;> simp

theorem Guarded.run_eq_error_iff {t u : Tables} {e : StoreError} (hx : x.Guarded) :
    x.run Tables.answer t = (.error e, u) ↔ x.effect t = .error e ∧ u = t := by
  rw [effect_eq_error_iff]
  constructor
  · intro h
    exact ⟨⟨u, h⟩, hx t u e h⟩
  · rintro ⟨⟨v, h⟩, rfl⟩
    obtain rfl := hx u v e h
    exact h

end Script

namespace Engine

variable {α : Type}

/-- Carries out a script in one transaction, and commits where its outcome is not an error. -/
def transact (e : Engine) (x : Script α) : Except StoreError α × Engine :=
  match e.medium with
  | .memory =>
    match x.run Overlay.answer (.start e.tables) with
    | (.ok a, o) => (.ok a, { e with tables := o.commit })
    | (.error cause, _) => (.error cause, e)
  | .database | .file =>
    match x.run Tables.answer e.tables with
    | (.ok a, t) => (.ok a, { e with tables := t })
    | (.error cause, _) => (.error cause, e)

/-- The requests of a script, as the medium of the engine answers them. -/
def requests (e : Engine) (x : Script α) : List Request :=
  match e.medium with
  | .memory => x.requests Overlay.answer (.start e.tables)
  | .database | .file => x.requests Tables.answer e.tables

theorem transact_eq_write (e : Engine) (x : Script α) :
    (e.transact x).2 = (e.write (e.requests x) ((e.transact x).1.map fun _ => ())).2 := by
  obtain ⟨medium, t⟩ := e
  have ho := x.answerAll_requests Overlay.answer (.start t)
  have ht := x.answerAll_requests Tables.answer t
  cases medium
  case memory =>
    simp only [transact, write, requests]
    cases hx : x.run Overlay.answer (.start t) with
    | mk outcome o => cases outcome <;> simp_all
  all_goals
    simp only [transact, write, requests]
    cases hx : x.run Tables.answer t with
    | mk outcome u => cases outcome <;> simp_all

/-- All media agree on a script, and with what it makes of the tables. -/
theorem transact_eq (m : Medium) (t : Tables) (x : Script α) :
    (Engine.mk m t).transact x =
      match x.effect t with
      | .ok (a, u) => (.ok a, ⟨m, u⟩)
      | .error cause => (.error cause, ⟨m, t⟩) := by
  obtain ⟨houtcome, hcovers⟩ := x.run_start t
  unfold Script.effect
  cases hx : x.run Tables.answer t with
  | mk outcome u =>
    rw [hx] at houtcome hcovers
    cases ho : x.run Overlay.answer (.start t) with
    | mk outcome' o =>
      rw [ho] at houtcome hcovers
      obtain rfl : outcome' = outcome := houtcome
      have hcommit : o.commit = u := hcovers.shows.commit
      cases m <;> cases outcome' <;> simp [transact, hx, ho, hcommit]

end Engine

end SignedLedger
