/-! Finite maps with few entries, as lists of pairs. Only look-ups are meant to be observed, and the
two laws of look-up determine them. -/

namespace SignedLedger

structure FiniteMap (α β : Type) where
  entries : List (α × β)

namespace FiniteMap

variable {α β : Type} [DecidableEq α]

def empty : FiniteMap α β :=
  ⟨[]⟩

def get? (m : FiniteMap α β) (a : α) : Option β :=
  (m.entries.find? fun e => e.1 = a).map Prod.snd

def erase (m : FiniteMap α β) (a : α) : FiniteMap α β :=
  ⟨m.entries.filter fun e => e.1 ≠ a⟩

/-- Replaces the value of a key that is there already. -/
def insert (m : FiniteMap α β) (a : α) (b : β) : FiniteMap α β :=
  ⟨(a, b) :: (m.erase a).entries⟩

@[simp] theorem get?_empty (a : α) : (empty : FiniteMap α β).get? a = none := rfl

theorem get?_erase (m : FiniteMap α β) (a k : α) :
    (m.erase a).get? k = if k = a then none else m.get? k := by
  obtain ⟨entries⟩ := m
  induction entries with
  | nil => simp [erase, get?]
  | cons e rest ih =>
    simp only [erase, get?] at ih ⊢
    by_cases he : e.1 = a
    · by_cases hk : k = a
      · subst hk
        simp_all
      · have hek : ¬ e.1 = k := fun h => hk (h.symm.trans he)
        simpa [he, hk, hek, Ne.symm hk] using ih
    · by_cases hek : e.1 = k
      · subst hek
        simp [he]
      · simpa [he, hek] using ih

theorem get?_insert (m : FiniteMap α β) (a : α) (b : β) (k : α) :
    (m.insert a b).get? k = if k = a then some b else m.get? k := by
  by_cases h : k = a
  · subst h
    simp [insert, get?]
  · have hr := get?_erase m a k
    simp only [get?, if_neg h] at hr ⊢
    simp [insert, Ne.symm h, hr]

end FiniteMap

end SignedLedger
