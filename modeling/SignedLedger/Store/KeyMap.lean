import SignedLedger.Bytes

/-! Maps from byte strings, in the order of their keys. Two maps with the same look-ups are equal. -/

namespace SignedLedger

theorem Bytes.lt_or_eq_or_gt (a b : Bytes) : a < b ∨ a = b ∨ b < a := by
  by_cases h : a < b
  · exact .inl h
  · by_cases h' : b < a
    · exact .inr (.inr h')
    · exact .inr (.inl (List.le_antisymm (List.not_lt.mp h') (List.not_lt.mp h)))

theorem Bytes.ne_of_lt {a b : Bytes} (h : a < b) : a ≠ b := by
  rintro rfl
  exact List.lt_irrefl a h

structure KeyMap (β : Type) where
  entries : List (Bytes × β)
  sorted : entries.Pairwise fun a b => a.1 < b.1

namespace KeyMap

variable {β : Type}

def empty : KeyMap β :=
  ⟨[], .nil⟩

def size (m : KeyMap β) : Nat :=
  m.entries.length

def lookup (k : Bytes) : List (Bytes × β) → Option β
  | [] => none
  | e :: rest => if e.1 = k then some e.2 else lookup k rest

def get? (m : KeyMap β) (k : Bytes) : Option β :=
  lookup k m.entries

/-- Puts an entry in its place, over the one with the same key. -/
def place (k : Bytes) (b : β) : List (Bytes × β) → List (Bytes × β)
  | [] => [(k, b)]
  | e :: rest =>
    if k < e.1 then (k, b) :: e :: rest
    else if e.1 = k then (k, b) :: rest
    else e :: place k b rest

theorem mem_place {k : Bytes} {b : β} {l : List (Bytes × β)} {x : Bytes × β} (h : x ∈ place k b l) :
    x = (k, b) ∨ x ∈ l := by
  induction l with
  | nil => simpa [place] using h
  | cons e rest ih =>
    unfold place at h
    split at h
    · simpa using h
    · split at h
      · rcases List.mem_cons.mp h with h | h
        · exact .inl h
        · exact .inr (List.mem_cons_of_mem e h)
      · rcases List.mem_cons.mp h with h | h
        · exact .inr (h ▸ List.mem_cons_self)
        · exact (ih h).imp id (List.mem_cons_of_mem e)

theorem sorted_place {k : Bytes} {b : β} {l : List (Bytes × β)} (h : l.Pairwise fun a b => a.1 < b.1) :
    (place k b l).Pairwise fun a b => a.1 < b.1 := by
  induction l with
  | nil => simp [place]
  | cons e rest ih =>
    obtain ⟨he, hr⟩ := List.pairwise_cons.mp h
    unfold place
    split
    · rename_i hk
      refine List.pairwise_cons.mpr ⟨fun x hx => ?_, h⟩
      rcases List.mem_cons.mp hx with rfl | hx
      · exact hk
      · exact List.lt_trans hk (he x hx)
    · split
      · rename_i hk
        subst hk
        exact List.pairwise_cons.mpr ⟨he, hr⟩
      · rename_i hlt hne
        have hk : e.1 < k := ((Bytes.lt_or_eq_or_gt e.1 k).resolve_right (by simp [hne, hlt]))
        refine List.pairwise_cons.mpr ⟨fun x hx => ?_, ih hr⟩
        rcases mem_place hx with rfl | hx
        · exact hk
        · exact he x hx

def insert (m : KeyMap β) (k : Bytes) (b : β) : KeyMap β :=
  ⟨place k b m.entries, sorted_place m.sorted⟩

def erase (m : KeyMap β) (k : Bytes) : KeyMap β :=
  ⟨m.entries.filter fun e => e.1 ≠ k, m.sorted.filter _⟩

/-- Whether a key is from `start` on and, if there is an end, before it. -/
def inRange (start : Bytes) (stop : Option Bytes) (k : Bytes) : Bool :=
  start ≤ k && stop.all fun s => k < s

def range (m : KeyMap β) (start : Bytes) (stop : Option Bytes) : KeyMap β :=
  ⟨m.entries.filter fun e => inRange start stop e.1, m.sorted.filter _⟩

@[simp] theorem get?_empty (k : Bytes) : (empty : KeyMap β).get? k = none := rfl

theorem lookup_place (k : Bytes) (b : β) (l : List (Bytes × β)) (i : Bytes) :
    lookup i (place k b l) = if i = k then some b else lookup i l := by
  induction l with
  | nil => simp [place, lookup, eq_comm]
  | cons e rest ih =>
    unfold place
    split
    · simp [lookup, eq_comm]
    · split
      · rename_i hk
        subst hk
        by_cases h : i = e.1
        · simp [lookup, h]
        · simp [lookup, h, Ne.symm h]
      · rename_i hne
        by_cases he : e.1 = i
        · subst he
          simp [lookup, hne]
        · simp [lookup, he, ih]

@[simp] theorem get?_insert (m : KeyMap β) (k : Bytes) (b : β) (i : Bytes) :
    (m.insert k b).get? i = if i = k then some b else m.get? i :=
  lookup_place k b m.entries i

theorem lookup_filter (p : Bytes → Bool) (l : List (Bytes × β)) (i : Bytes) :
    lookup i (l.filter fun e => p e.1) = if p i then lookup i l else none := by
  induction l with
  | nil => simp [lookup]
  | cons e rest ih =>
    by_cases he : e.1 = i
    · subst he
      cases hp : p e.1 <;> simp [lookup, hp, ih]
    · cases hp : p e.1 <;> simp [lookup, hp, he, ih]

@[simp] theorem get?_erase (m : KeyMap β) (k i : Bytes) :
    (m.erase k).get? i = if i = k then none else m.get? i := by
  have h := lookup_filter (fun x => decide (x ≠ k)) m.entries i
  simp only [decide_eq_true_eq] at h
  by_cases hi : i = k <;> simp_all [get?, erase]

@[simp] theorem get?_range (m : KeyMap β) (start : Bytes) (stop : Option Bytes) (i : Bytes) :
    (m.range start stop).get? i = if inRange start stop i then m.get? i else none :=
  lookup_filter (inRange start stop) m.entries i

theorem lookup_eq_none_of_lt {l : List (Bytes × β)} {k : Bytes} (h : ∀ e ∈ l, k < e.1) :
    lookup k l = none := by
  induction l with
  | nil => rfl
  | cons e rest ih =>
    have he := Bytes.ne_of_lt (h e List.mem_cons_self)
    simp [lookup, Ne.symm he, ih fun x hx => h x (List.mem_cons_of_mem e hx)]

theorem entries_eq_of_lookup {l r : List (Bytes × β)} (hl : l.Pairwise fun a b => a.1 < b.1)
    (hr : r.Pairwise fun a b => a.1 < b.1) (h : ∀ k, lookup k l = lookup k r) : l = r := by
  induction l generalizing r with
  | nil =>
    cases r with
    | nil => rfl
    | cons f _ => simpa [lookup] using h f.1
  | cons e l ih =>
    obtain ⟨he, hl⟩ := List.pairwise_cons.mp hl
    cases r with
    | nil => simpa [lookup] using h e.1
    | cons f r =>
      obtain ⟨hf, hr⟩ := List.pairwise_cons.mp hr
      have hkey : e.1 = f.1 := by
        rcases Bytes.lt_or_eq_or_gt e.1 f.1 with hlt | heq | hgt
        · have hn : lookup e.1 (f :: r) = none :=
            lookup_eq_none_of_lt fun x hx => by
              rcases List.mem_cons.mp hx with rfl | hx
              · exact hlt
              · exact List.lt_trans hlt (hf x hx)
          have hs := h e.1
          rw [hn] at hs
          simp [lookup] at hs
        · exact heq
        · have hn : lookup f.1 (e :: l) = none :=
            lookup_eq_none_of_lt fun x hx => by
              rcases List.mem_cons.mp hx with rfl | hx
              · exact hgt
              · exact List.lt_trans hgt (he x hx)
          have hs := h f.1
          rw [hn] at hs
          simp [lookup] at hs
      have hvalue : e.2 = f.2 := by
        have hs := h e.1
        simpa [lookup, hkey] using hs
      have hrest : l = r := by
        refine ih hl hr fun k => ?_
        by_cases hk : e.1 = k
        · rw [lookup_eq_none_of_lt (hk ▸ he), lookup_eq_none_of_lt (hk ▸ hkey ▸ hf)]
        · have hs := h k
          simpa [lookup, hk, hkey ▸ hk] using hs
      rw [Prod.ext hkey hvalue, hrest]

theorem ext_get? {m n : KeyMap β} (h : ∀ k, m.get? k = n.get? k) : m = n := by
  obtain ⟨l, hl⟩ := m
  obtain ⟨r, hr⟩ := n
  have := entries_eq_of_lookup hl hr h
  subst this
  rfl

end KeyMap

end SignedLedger
