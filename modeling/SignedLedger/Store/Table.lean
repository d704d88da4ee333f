import SignedLedger.Store.KeyMap

/-! The tables of a store, and what can be asked of them inside one transaction. -/

namespace SignedLedger

inductive Table where
  | blocks
  | transactions
  | artifacts
  | heights
  | head
deriving DecidableEq

namespace Table

def all : List Table :=
  [blocks, transactions, artifacts, heights, head]

def name : Table → String
  | blocks => "blocks"
  | transactions => "transactions"
  | artifacts => "artifacts"
  | heights => "heights"
  | head => "head"

end Table

/-- Something for every table. -/
structure PerTable (α : Type) where
  blocks : α
  transactions : α
  artifacts : α
  heights : α
  head : α

namespace PerTable

variable {α : Type}

def const (a : α) : PerTable α :=
  ⟨a, a, a, a, a⟩

def get (p : PerTable α) : Table → α
  | .blocks => p.blocks
  | .transactions => p.transactions
  | .artifacts => p.artifacts
  | .heights => p.heights
  | .head => p.head

def set (p : PerTable α) (t : Table) (a : α) : PerTable α :=
  match t with
  | .blocks => { p with blocks := a }
  | .transactions => { p with transactions := a }
  | .artifacts => { p with artifacts := a }
  | .heights => { p with heights := a }
  | .head => { p with head := a }

@[simp] theorem get_const (a : α) (t : Table) : (const a).get t = a := by
  cases t <;> rfl

@[simp] theorem get_set (p : PerTable α) (t : Table) (a : α) (u : Table) :
    (p.set t a).get u = if u = t then a else p.get u := by
  cases t <;> cases u <;> rfl

theorem ext_get {p q : PerTable α} (h : ∀ t, p.get t = q.get t) : p = q := by
  obtain ⟨b, t, a, i, d⟩ := p
  obtain ⟨b', t', a', i', d'⟩ := q
  have hb : b = b' := h .blocks
  have ht : t = t' := h .transactions
  have ha : a = a' := h .artifacts
  have hi : i = i' := h .heights
  have hd : d = d' := h .head
  rw [hb, ht, ha, hi, hd]

end PerTable

abbrev Tables := PerTable (KeyMap Bytes)

namespace Tables

def empty : Tables :=
  .const .empty

def get? (t : Tables) (table : Table) (key : Bytes) : Option Bytes :=
  (t.get table).get? key

/-- The entries with keys from `start` on and before `stop`, in the order of the keys. -/
def range (t : Tables) (table : Table) (start : Bytes) (stop : Option Bytes) : List (Bytes × Bytes) :=
  ((t.get table).range start stop).entries

def put (t : Tables) (table : Table) (key value : Bytes) : Tables :=
  t.set table ((t.get table).insert key value)

def delete (t : Tables) (table : Table) (key : Bytes) : Tables :=
  t.set table ((t.get table).erase key)

def sizes (t : Tables) : List Nat :=
  Table.all.map fun table => (t.get table).size

@[simp] theorem get?_empty (table : Table) (key : Bytes) : empty.get? table key = none := by
  simp [get?, empty]

theorem get?_put (t : Tables) (table : Table) (key value : Bytes) (u : Table) (k : Bytes) :
    (t.put table key value).get? u k = if u = table ∧ k = key then some value else t.get? u k := by
  by_cases hu : u = table
  · subst hu
    simp [get?, put]
  · simp [get?, put, hu]

theorem get?_delete (t : Tables) (table : Table) (key : Bytes) (u : Table) (k : Bytes) :
    (t.delete table key).get? u k = if u = table ∧ k = key then none else t.get? u k := by
  by_cases hu : u = table
  · subst hu
    simp [get?, delete]
  · simp [get?, delete, hu]

theorem ext_get? {t u : Tables} (h : ∀ table key, t.get? table key = u.get? table key) : t = u :=
  PerTable.ext_get fun table => KeyMap.ext_get? fun key => h table key

end Tables

inductive Request where
  | get (table : Table) (key : Bytes)
  | range (table : Table) (start : Bytes) (stop : Option Bytes)
  | put (table : Table) (key value : Bytes)
  | delete (table : Table) (key : Bytes)
deriving DecidableEq

inductive Reply where
  | value (value : Option Bytes)
  | entries (entries : List (Bytes × Bytes))
  | stored
  /-- Whether a deleted key was there. -/
  | existed (existed : Bool)
deriving DecidableEq

def Tables.answer (t : Tables) : Request → Reply × Tables
  | .get table key => (.value (t.get? table key), t)
  | .range table start stop => (.entries (t.range table start stop), t)
  | .put table key value => (.stored, t.put table key value)
  | .delete table key => (.existed (t.get? table key).isSome, t.delete table key)

def answerAll {σ : Type} (answer : σ → Request → Reply × σ) (s : σ) : List Request → List Reply × σ
  | [] => ([], s)
  | r :: rest =>
    let (reply, s) := answer s r
    let (replies, s) := answerAll answer s rest
    (reply :: replies, s)

end SignedLedger
