import SignedLedger.Store.Overlay

/-! What an overlay shows. Staged writes are read as if they had been made, the committed tables are
not touched by them, and committing makes exactly the tables that were shown. -/

namespace SignedLedger.Overlay

/-- That what is read of `o` is what is in `t`. -/
def Shows (o : Overlay) (t : Tables) : Prop :=
  ∀ table key, o.get? table key = t.get? table key

/-- That `o` leaves the tables `t` as they are, and shows `u` in their place. -/
structure Covers (o : Overlay) (t u : Tables) : Prop where
  base : o.base = t
  shows : o.Shows u

variable {o : Overlay} {t u : Tables}

theorem shows_start (t : Tables) : (start t).Shows t := by
  intro table key
  simp [start, get?]

theorem get?_stage (o : Overlay) (table : Table) (key : Bytes) (written : Option Bytes) (u : Table)
    (k : Bytes) :
    (o.stage table key written).get? u k = if u = table ∧ k = key then written else o.get? u k := by
  by_cases hu : u = table
  · subst hu
    by_cases hk : k = key <;> simp [get?, stage, hk]
  · simp [get?, stage, hu]

theorem Shows.put (h : o.Shows t) (table : Table) (key value : Bytes) :
    (o.stage table key (some value)).Shows (t.put table key value) := by
  intro u k
  rw [get?_stage, Tables.get?_put, h u k]

/-- Every key is written once, so that the order of the writes does not matter. -/
theorem get?_apply {writes : List (Bytes × Option Bytes)} (m : KeyMap Bytes) (k : Bytes)
    (hw : writes.Pairwise fun a b => a.1 < b.1) :
    (apply m writes).get? k = (KeyMap.lookup k writes).getD (m.get? k) := by
  induction writes generalizing m with
  | nil => rfl
  | cons e writes ih =>
    obtain ⟨key, written⟩ := e
    obtain ⟨hlt, hw⟩ := List.pairwise_cons.mp hw
    have hrest : ∀ n : KeyMap Bytes, n.get? k = (if k = key then written else m.get? k) →
        (apply n writes).get? k = (KeyMap.lookup k ((key, written) :: writes)).getD (m.get? k) := by
      intro n hn
      rw [ih n hw, hn]
      by_cases hk : key = k
      · subst hk
        simp [KeyMap.lookup, KeyMap.lookup_eq_none_of_lt hlt]
      · simp [KeyMap.lookup, hk, Ne.symm hk]
    cases written with
    | none => exact hrest _ (KeyMap.get?_erase m key k)
    | some value => exact hrest _ (KeyMap.get?_insert m key value k)

theorem get_commit (o : Overlay) (table : Table) :
    o.commit.get table = apply (o.base.get table) (o.staged.get table).entries := by
  cases table <;> rfl

theorem Shows.commit (h : o.Shows t) : o.commit = t := by
  refine Tables.ext_get? fun table key => ?_
  have hcommit : o.commit.get? table key =
      ((o.staged.get table).get? key).getD (o.base.get? table key) := by
    rw [Tables.get?, get_commit, get?_apply _ _ (o.staged.get table).sorted]
    rfl
  rw [hcommit, ← h table key, get?]
  cases (o.staged.get table).get? key <;> rfl

theorem covers_start (t : Tables) : (start t).Covers t t :=
  ⟨rfl, shows_start t⟩

theorem Covers.put (h : o.Covers t u) (table : Table) (key value : Bytes) :
    (o.stage table key (some value)).Covers t (u.put table key value) :=
  ⟨h.base, h.shows.put table key value⟩

end SignedLedger.Overlay
