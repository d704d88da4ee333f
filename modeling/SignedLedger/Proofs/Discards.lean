import Mathlib.Data.List.DropRight
import Mathlib.Data.List.Nodup
import SignedLedger.Ledger

/-! What is remembered of discards. Of the transactions whose last fate is a discard the ledger keeps
the latest ones: a discard adds what it discards at the end, and forgets from the front what there is
no room for. -/

namespace SignedLedger

/-- What befalls transactions, in the order of time: the status that each of them takes. -/
abbrev Fates := List (TransactionId × SubmissionStatus)

theorem filter_not_mem_of_disjoint {xs ys : List TransactionId} (h : xs.Disjoint ys) :
    (xs.filter fun id => id ∉ ys) = xs := by
  rw [List.filter_eq_self]
  exact fun id hid => decide_eq_true (h hid)

namespace Fates

/-- The transactions whose last fate is a discard, in the order of these discards. -/
def discarded : Fates → List TransactionId
  | [] => []
  | (id, fate) :: later =>
    if fate = .discarded ∧ id ∉ later.map Prod.fst then id :: discarded later else discarded later

variable {past : Fates} {fate : SubmissionStatus} {xs remembered : List TransactionId}

theorem map_fst_map (fate : SubmissionStatus) (xs : List TransactionId) :
    (xs.map (·, fate)).map Prod.fst = xs := by
  simp [Function.comp_def]

theorem discarded_append (past more : Fates) :
    discarded (past ++ more) =
      (past.discarded.filter fun id => id ∉ more.map Prod.fst) ++ more.discarded := by
  induction past with
  | nil => rfl
  | cons f past ih =>
    obtain ⟨id, fate⟩ := f
    have hids : (past ++ more).map Prod.fst = past.map Prod.fst ++ more.map Prod.fst :=
      List.map_append
    by_cases hlast : fate = .discarded ∧ id ∉ past.map Prod.fst
    · by_cases hmore : id ∈ more.map Prod.fst
      · simp [discarded, hids, hlast, hmore, ih]
      · simp [discarded, hids, hlast, hmore, ih]
    · have hlater : ¬ (fate = .discarded ∧ id ∉ past.map Prod.fst ++ more.map Prod.fst) :=
        fun h => hlast ⟨h.1, fun hp => h.2 (List.mem_append_left _ hp)⟩
      rw [List.cons_append, discarded, hids, if_neg hlater, ih, discarded, if_neg hlast]

example :
    let first : TransactionId := ⟨.ofNat 16 1⟩
    let second : TransactionId := ⟨.ofNat 16 2⟩
    discarded ([(first, .discarded), (second, .discarded)] ++
      [(first, .pending), (first, .discarded)]) = [second, first] := by
  decide

theorem discarded_map (hn : xs.Nodup) :
    discarded (xs.map (·, .discarded)) = xs := by
  induction xs with
  | nil => rfl
  | cons id xs ih =>
    obtain ⟨hid, hn⟩ := List.nodup_cons.mp hn
    rw [List.map_cons, discarded, map_fst_map, if_pos ⟨rfl, hid⟩, ih hn]

theorem discarded_map_of_ne (hf : fate ≠ .discarded) : discarded (xs.map (·, fate)) = [] := by
  induction xs with
  | nil => rfl
  | cons id xs ih => rw [List.map_cons, discarded, if_neg fun h => hf h.1, ih]

/-- What is remembered of the latest discards is so still when something befalls `xs`, once these are
forgotten. -/
theorem filter_suffix (h : remembered <:+ past.discarded) (hf : fate ≠ .discarded)
    (xs : List TransactionId) :
    (remembered.filter fun id => id ∉ xs) <:+ discarded (past ++ xs.map (·, fate)) := by
  rw [discarded_append, map_fst_map, discarded_map_of_ne hf, List.append_nil]
  exact h.filter _

theorem append_suffix (h : remembered <:+ past.discarded) (hn : (remembered ++ xs).Nodup) :
    remembered ++ xs <:+ discarded (past ++ xs.map (·, .discarded)) := by
  obtain ⟨_, hxs, hdisjoint⟩ := List.nodup_append'.mp hn
  obtain ⟨older, ho⟩ := h.filter fun id => id ∉ xs
  rw [filter_not_mem_of_disjoint hdisjoint] at ho
  exact ⟨older, by rw [discarded_append, map_fst_map, discarded_map hxs, ← ho, List.append_assoc]⟩

end Fates

theorem length_rtake_le {α : Type} (xs : List α) (n : Nat) : (xs.rtake n).length ≤ n := by
  rw [List.rtake, List.length_drop]
  omega

theorem mem_rtake_iff {α : Type} {xs : List α} (hn : xs.Nodup) {n : Nat} {a : α} :
    a ∈ xs.rtake n ↔ a ∈ xs ∧ a ∉ xs.take (xs.length - n) := by
  have hsplit : xs.take (xs.length - n) ++ xs.rtake n = xs := List.take_append_drop ..
  generalize xs.take (xs.length - n) = front at hsplit ⊢
  generalize xs.rtake n = rest at hsplit ⊢
  subst hsplit
  have hdisjoint := List.disjoint_of_nodup_append hn
  rw [List.mem_append]
  exact ⟨fun ha => ⟨.inr ha, fun hf => hdisjoint hf ha⟩, fun ⟨ha, hf⟩ => ha.resolve_left hf⟩

theorem get?_foldl_insert {α β : Type} [DecidableEq α] (b : β) (keys : List α) (m : FiniteMap α β)
    (k : α) :
    (keys.foldl (fun m a => m.insert a b) m).get? k = if k ∈ keys then some b else m.get? k := by
  induction keys generalizing m with
  | nil => simp
  | cons a keys ih =>
    rw [List.foldl_cons, ih, FiniteMap.get?_insert]
    by_cases hk : k = a
    · simp [hk]
    · simp [hk]

namespace Ledger

def forget (m : FiniteMap TransactionId SubmissionStatus) (id : TransactionId) :
    FiniteMap TransactionId SubmissionStatus :=
  if m.get? id = some .discarded then m.erase id else m

theorem get?_foldl_forget (ids : List TransactionId)
    (m : FiniteMap TransactionId SubmissionStatus) (id : TransactionId) :
    (ids.foldl forget m).get? id =
      if id ∈ ids ∧ m.get? id = some .discarded then none else m.get? id := by
  induction ids generalizing m with
  | nil => simp
  | cons i ids ih =>
    have hstep : (forget m i).get? id =
        if id = i ∧ m.get? id = some .discarded then none else m.get? id := by
      unfold forget
      by_cases hi : id = i
      · subst hi
        split <;> simp_all [FiniteMap.get?_erase]
      · split <;> simp [hi, FiniteMap.get?_erase]
    rw [List.foldl_cons, ih, hstep]
    by_cases hi : id = i <;> by_cases hd : m.get? id = some .discarded <;> simp [hi, hd]

/-- Eviction forgets from the front until there is room. -/
theorem evict_eq (limit : Nat) (ids : List TransactionId)
    (m : FiniteMap TransactionId SubmissionStatus) :
    evict limit ids m = (ids.rtake limit, (ids.take (ids.length - limit)).foldl forget m) := by
  induction ids generalizing m with
  | nil => simp [evict]
  | cons i rest ih =>
    unfold evict List.rtake
    by_cases hfull : limit < rest.length + 1
    · have hlength : (i :: rest).length - limit = rest.length - limit + 1 := by
        rw [List.length_cons]
        omega
      rw [if_pos hfull, ih, hlength]
      rfl
    · have hlength : (i :: rest).length - limit = 0 := by
        rw [List.length_cons]
        omega
      rw [if_neg hfull, hlength]
      rfl

/-- What the ledger knows of: what it remembers to be discarded, and what is queued. -/
def known (l : Ledger) : List TransactionId :=
  l.discarded ++ l.queue.map Transaction.id

theorem discard_discarded (l : Ledger) :
    l.discard.2.discarded = l.known.rtake l.config.maxDiscarded :=
  congrArg Prod.fst (evict_eq ..)

theorem get?_discard (l : Ledger) (id : TransactionId) :
    l.discard.2.statuses.get? id =
      if id ∈ l.known.take (l.known.length - l.config.maxDiscarded) ∧
        (id ∈ l.queue.map Transaction.id ∨ l.statuses.get? id = some .discarded) then none
      else if id ∈ l.queue.map Transaction.id then some .discarded
      else l.statuses.get? id := by
  have heq : l.discard.2.statuses = (evict l.config.maxDiscarded l.known
      ((l.queue.map Transaction.id).foldl (fun m id => m.insert id .discarded) l.statuses)).2 := rfl
  rw [heq, evict_eq, get?_foldl_forget, get?_foldl_insert]
  by_cases hq : id ∈ l.queue.map Transaction.id
  · simp only [hq, if_true, true_or]
  · simp only [hq, if_false, false_or]

end Ledger

end SignedLedger
