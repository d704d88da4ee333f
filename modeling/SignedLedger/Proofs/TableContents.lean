import SignedLedger.Store.Table

/-! What tables hold, told as a function of the table and the key. A write changes this function in one
place, and what a request is answered with follows from it alone. -/

namespace SignedLedger

namespace KeyMap

variable {β : Type} {k : Bytes} {b : β} {entries : List (Bytes × β)}

theorem lookup_eq_some_iff (h : entries.Pairwise fun a b => a.1 < b.1) :
    lookup k entries = some b ↔ (k, b) ∈ entries := by
  induction entries with
  | nil => simp [lookup]
  | cons e rest ih =>
    obtain ⟨he, hrest⟩ := List.pairwise_cons.mp h
    by_cases hk : e.1 = k
    · have hout : (k, b) ∉ rest := fun hm => Bytes.ne_of_lt (he _ hm) hk
      have hhead : (k, b) = e ↔ e.2 = b := by
        constructor
        · intro heq
          rw [← heq]
        · intro hb
          exact Prod.ext hk.symm hb.symm
      simp only [lookup, if_pos hk, List.mem_cons, hout, or_false, hhead, Option.some.injEq]
    · have hhead : (k, b) ≠ e := fun heq => hk (by rw [← heq])
      simp only [lookup, if_neg hk, List.mem_cons, hhead, false_or, ih hrest]

theorem mem_entries_iff {m : KeyMap β} : (k, b) ∈ m.entries ↔ m.get? k = some b :=
  (lookup_eq_some_iff m.sorted).symm

theorem inRange_eq_true_iff {start : Bytes} {stop : Option Bytes} :
    inRange start stop k = true ↔ start ≤ k ∧ ∀ s ∈ stop, k < s := by
  cases stop with
  | none => simp [inRange]
  | some s => simp [inRange]

theorem mem_range_iff {m : KeyMap β} {start : Bytes} {stop : Option Bytes} :
    (k, b) ∈ (m.range start stop).entries ↔
      m.get? k = some b ∧ start ≤ k ∧ ∀ s ∈ stop, k < s := by
  have hmem : (k, b) ∈ (m.range start stop).entries ↔
      (k, b) ∈ m.entries ∧ inRange start stop k = true := List.mem_filter
  rw [hmem, mem_entries_iff, inRange_eq_true_iff]

end KeyMap

/-- The value under every key of every table. -/
abbrev Contents := Table → Bytes → Option Bytes

namespace Contents

/-- The contents where `written` stands under one key, or nothing does. -/
def write (m : Contents) (table : Table) (key : Bytes) (written : Option Bytes) : Contents :=
  fun u k => if u = table ∧ k = key then written else m u k

def after (m : Contents) : Request → Contents
  | .get _ _ => m
  | .range _ _ _ => m
  | .put table key value => m.write table key (some value)
  | .delete table key => m.write table key none

/-- That `entries` are what is held under the keys from `start` on and before `stop`, each key once and
in their order. -/
structure Lists (m : Contents) (table : Table) (start : Bytes) (stop : Option Bytes)
    (entries : List (Bytes × Bytes)) : Prop where
  increasing : entries.Pairwise fun a b => a.1 < b.1
  mem_iff : ∀ key value, (key, value) ∈ entries ↔
    m table key = some value ∧ start ≤ key ∧ ∀ s ∈ stop, key < s

/-- What a request is answered with. -/
inductive Answers (m : Contents) : Request → Reply → Prop
  | get (table : Table) (key : Bytes) : Answers m (.get table key) (.value (m table key))
  | range {table : Table} {start : Bytes} {stop : Option Bytes} {entries : List (Bytes × Bytes)}
    (h : m.Lists table start stop entries) : Answers m (.range table start stop) (.entries entries)
  | put (table : Table) (key value : Bytes) : Answers m (.put table key value) .stored
  | delete (table : Table) (key : Bytes) :
    Answers m (.delete table key) (.existed (m table key).isSome)

variable {m : Contents} {table : Table} {start s : Bytes} {stop : Option Bytes}
variable {entries entries' : List (Bytes × Bytes)} {r : Request} {reply reply' : Reply}

theorem Lists.unique (h : m.Lists table start stop entries)
    (h' : m.Lists table start stop entries') : entries = entries' := by
  apply KeyMap.entries_eq_of_lookup h.increasing h'.increasing
  intro k
  apply Option.ext
  intro b
  rw [KeyMap.lookup_eq_some_iff h.increasing, KeyMap.lookup_eq_some_iff h'.increasing, h.mem_iff,
    h'.mem_iff]

/-- Nothing lies between an end and a start after it. -/
theorem Lists.eq_nil (h : m.Lists table start (some s) entries) (hs : s ≤ start) : entries = [] := by
  rw [List.eq_nil_iff_forall_not_mem]
  rintro ⟨k, b⟩ hm
  obtain ⟨_, hstart, hstop⟩ := (h.mem_iff k b).mp hm
  have hlt : k < s := hstop s rfl
  exact List.not_lt.mpr (List.le_trans hs hstart) hlt

/-- Only one reply answers a request. -/
theorem Answers.unique (h : m.Answers r reply) (h' : m.Answers r reply') : reply = reply' := by
  cases h with
  | get => cases h'; rfl
  | range hl =>
    cases h' with
    | range hl' => rw [hl.unique hl']
  | put => cases h'; rfl
  | delete => cases h'; rfl

end Contents

namespace Tables

variable {t : Tables} {r : Request}

theorem lists_range (t : Tables) (table : Table) (start : Bytes) (stop : Option Bytes) :
    Contents.Lists t.get? table start stop (t.range table start stop) where
  increasing := ((t.get table).range start stop).sorted
  mem_iff := fun _ _ => KeyMap.mem_range_iff

theorem answers_answer (t : Tables) (r : Request) :
    Contents.Answers t.get? r (t.answer r).1 := by
  cases r with
  | get table key => exact .get table key
  | range table start stop => exact .range (t.lists_range table start stop)
  | put table key value => exact .put table key value
  | delete table key => exact .delete table key

theorem get?_answer (t : Tables) (r : Request) : (t.answer r).2.get? = Contents.after t.get? r := by
  funext u k
  cases r with
  | get => rfl
  | range => rfl
  | put table key value => exact get?_put t table key value u k
  | delete table key => exact get?_delete t table key u k

end Tables

end SignedLedger
