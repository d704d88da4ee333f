import SignedLedger.Proofs.StagedWrites
import SignedLedger.Proofs.TableContents
import SignedLedger.Store.Engine

/-! Writes that seem to be made at once. A transaction that stages its writes and one that makes them
are answered alike, request by request, and what the first one commits is what the second one has
made. -/

namespace SignedLedger

namespace Contents

variable {σ τ : Type} {view : σ → Contents} {view' : τ → Contents}
variable {answer : σ → Request → Reply × σ} {answer' : τ → Request → Reply × τ}

/-- That a state is answered from what is seen of it, and changes as this does. -/
structure Describes (view : σ → Contents) (answer : σ → Request → Reply × σ) : Prop where
  answers : ∀ s r, (view s).Answers r (answer s r).1
  after : ∀ s r, view (answer s r).2 = (view s).after r

theorem Describes.view_answerAll (h : Describes view answer) (s : σ) (requests : List Request) :
    view (answerAll answer s requests).2 = requests.foldl Contents.after (view s) := by
  induction requests generalizing s with
  | nil => rfl
  | cons r rest ih =>
    have hrest : view (answerAll answer (answer s r).2 rest).2 =
        rest.foldl Contents.after (view (answer s r).2) := ih (answer s r).2
    rw [h.after] at hrest
    exact hrest

/-- Every request is answered from the contents that the requests before it leave. -/
theorem Describes.answered (h : Describes view answer) (s : σ) {requests : List Request} {n : Nat}
    {r : Request} (hr : requests[n]? = some r) :
    ∃ reply, (answerAll answer s requests).1[n]? = some reply ∧
      ((requests.take n).foldl Contents.after (view s)).Answers r reply := by
  induction requests generalizing s n with
  | nil => simp at hr
  | cons first rest ih =>
    cases n with
    | zero =>
      have heq : first = r := by simpa using hr
      subst heq
      exact ⟨(answer s first).1, rfl, h.answers s first⟩
    | succ n =>
      have hn : rest[n]? = some r := by simpa using hr
      obtain ⟨reply, hreply, hanswers⟩ := ih (answer s first).2 hn
      rw [h.after] at hanswers
      exact ⟨reply, hreply, hanswers⟩

/-- States of which the same is seen are answered alike. -/
theorem Describes.replies_eq (h : Describes view answer) (h' : Describes view' answer') {s : σ} {t : τ}
    (hst : view s = view' t) (requests : List Request) :
    (answerAll answer s requests).1 = (answerAll answer' t requests).1 := by
  induction requests generalizing s t with
  | nil => rfl
  | cons r rest ih =>
    have hanswers : (view' t).Answers r (answer s r).1 := hst ▸ h.answers s r
    have hreply : (answer s r).1 = (answer' t r).1 := hanswers.unique (h'.answers t r)
    have hafter : view (answer s r).2 = view' (answer' t r).2 := by
      rw [h.after, h'.after, hst]
    have hrest : (answerAll answer (answer s r).2 rest).1 =
        (answerAll answer' (answer' t r).2 rest).1 := ih hafter
    show (answer s r).1 :: (answerAll answer (answer s r).2 rest).1 =
      (answer' t r).1 :: (answerAll answer' (answer' t r).2 rest).1
    rw [hreply, hrest]

end Contents

theorem Tables.describes : Contents.Describes Tables.get? Tables.answer :=
  ⟨answers_answer, get?_answer⟩

namespace Overlay

variable {o : Overlay} {t : Tables}

/-- The staged writes of a range go over the committed entries of the range. -/
theorem get?_apply_range (o : Overlay) (table : Table) (start : Bytes) (stop : Option Bytes)
    (k : Bytes) :
    (apply ((o.base.get table).range start stop)
      ((o.staged.get table).range start stop).entries).get? k =
        if KeyMap.inRange start stop k then o.get? table k else none := by
  have hstaged : KeyMap.lookup k ((o.staged.get table).range start stop).entries =
      if KeyMap.inRange start stop k then (o.staged.get table).get? k else none :=
    KeyMap.get?_range (o.staged.get table) start stop k
  rw [get?_apply _ k ((o.staged.get table).range start stop).sorted, hstaged, KeyMap.get?_range]
  by_cases hk : KeyMap.inRange start stop k = true
  · rw [if_pos hk, if_pos hk, if_pos hk, get?]
    cases (o.staged.get table).get? k with
    | none => rfl
    | some written => rfl
  · rw [if_neg hk, if_neg hk, if_neg hk]
    rfl

theorem lists_range (o : Overlay) (table : Table) (start : Bytes) (stop : Option Bytes) :
    Contents.Lists o.get? table start stop (o.range table start stop) where
  increasing := KeyMap.sorted _
  mem_iff := by
    intro key value
    have hmem : (key, value) ∈ o.range table start stop ↔
        (if KeyMap.inRange start stop key then o.get? table key else none) = some value := by
      rw [range, KeyMap.mem_entries_iff, get?_apply_range]
    rw [hmem, ← KeyMap.inRange_eq_true_iff]
    by_cases hk : KeyMap.inRange start stop key = true
    · simp [hk]
    · simp [hk]

theorem describes : Contents.Describes get? answer where
  answers := by
    intro o r
    cases r with
    | get table key => exact .get table key
    | range table start stop => exact .range (o.lists_range table start stop)
    | put table key value => exact .put table key value
    | delete table key => exact .delete table key
  after := by
    intro o r
    funext u k
    cases r with
    | get => rfl
    | range => rfl
    | put table key value => exact o.get?_stage table key (some value) u k
    | delete table key => exact o.get?_stage table key none u k

theorem get?_start (t : Tables) : (start t).get? = t.get? := by
  funext table key
  exact shows_start t table key

/-- What is committed after any requests is what they leave when each of them is carried out at once. -/
theorem commit_answerAll (t : Tables) (requests : List Request) :
    (answerAll answer (start t) requests).2.commit = (answerAll Tables.answer t requests).2 := by
  have hshows : (answerAll answer (start t) requests).2.Shows
      (answerAll Tables.answer t requests).2 := by
    have hoverlay := describes.view_answerAll (start t) requests
    have htables := Tables.describes.view_answerAll t requests
    rw [get?_start, ← htables] at hoverlay
    intro table key
    rw [hoverlay]
  exact hshows.commit

end Overlay

/-- That a transaction on the tables `t`, with these requests and this outcome, is answered with
`replies` and leaves the tables `u`: as one whose writes are made at once, unless it fails. -/
structure Transacts (t : Tables) (requests : List Request) (outcome : Except StoreError Unit)
    (replies : List Reply) (u : Tables) : Prop where
  immediate : replies = (answerAll Tables.answer t requests).1
  answered : ∀ (n : Nat) (r : Request), requests[n]? = some r → ∃ reply, replies[n]? = some reply ∧
    Contents.Answers ((requests.take n).foldl Contents.after t.get?) r reply
  inverted : ∀ (n : Nat) (table : Table) (start stop : Bytes),
    requests[n]? = some (.range table start (some stop)) → stop ≤ start →
      replies[n]? = some (.entries [])
  committed : outcome = .ok () → u = (answerAll Tables.answer t requests).2 ∧
    u.get? = requests.foldl Contents.after t.get?
  discarded : ∀ e, outcome = .error e → u = t

namespace Engine

/-- What a transaction in memory is answered with, and what it leaves. -/
theorem write_memory (t : Tables) (requests : List Request) (outcome : Except StoreError Unit) :
    ((Engine.mk .memory t).write requests outcome).1 = (answerAll Overlay.answer (.start t) requests).1 ∧
      ((Engine.mk .memory t).write requests outcome).2.tables =
        match outcome with
        | .ok () => (answerAll Overlay.answer (.start t) requests).2.commit
        | .error _ => t := by
  cases outcome with
  | ok => exact ⟨rfl, rfl⟩
  | error e => exact ⟨rfl, rfl⟩

/-- Every engine answers as one that writes at once. -/
theorem write_replies (e : Engine) (requests : List Request) (outcome : Except StoreError Unit) :
    (e.write requests outcome).1 = (answerAll Tables.answer e.tables requests).1 := by
  obtain ⟨medium, t⟩ := e
  cases medium with
  | memory =>
    rw [(write_memory t requests outcome).1]
    exact Overlay.describes.replies_eq Tables.describes (Overlay.get?_start t) requests
  | database => cases outcome <;> rfl
  | file => cases outcome <;> rfl

/-- In memory, every transaction goes as if its writes were made at once. -/
theorem transacts_memory (t : Tables) (requests : List Request) (outcome : Except StoreError Unit) :
    Transacts t requests outcome ((Engine.mk .memory t).write requests outcome).1
      ((Engine.mk .memory t).write requests outcome).2.tables := by
  obtain ⟨hreplies, htables⟩ := write_memory t requests outcome
  have hanswered : ∀ (n : Nat) (r : Request), requests[n]? = some r →
      ∃ reply, ((Engine.mk .memory t).write requests outcome).1[n]? = some reply ∧
        Contents.Answers ((requests.take n).foldl Contents.after t.get?) r reply := by
    intro n r hr
    have h := Overlay.describes.answered (.start t) hr
    rwa [Overlay.get?_start, ← hreplies] at h
  refine ⟨write_replies _ requests outcome, hanswered, ?inverted, ?committed, ?discarded⟩
  case inverted =>
    intro n table start stop hr hle
    obtain ⟨reply, hreply, hanswers⟩ := hanswered n _ hr
    cases hanswers with
    | range hlists => rw [hreply, hlists.eq_nil hle]
  case committed =>
    rintro rfl
    have hcommit : ((Engine.mk .memory t).write requests (.ok ())).2.tables =
        (answerAll Tables.answer t requests).2 := htables.trans (Overlay.commit_answerAll t requests)
    rw [hcommit]
    exact ⟨rfl, Tables.describes.view_answerAll t requests⟩
  case discarded =>
    rintro e rfl
    exact htables

end Engine

end SignedLedger
