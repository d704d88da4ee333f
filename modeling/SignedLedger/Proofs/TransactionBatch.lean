import Mathlib.Data.List.Induction
import SignedLedger.Proofs.TransactionLog

/-! Batches of transactions after a log. What the log says once some of a batch is recorded is told
from the log and these transactions. A batch is recorded where every transaction of it extends the log
and the transactions before it, and it fails as the first certificate does that cannot be recorded. -/

namespace SignedLedger

namespace Transaction

def lastOf (xs : List Transaction) (a : ArtifactId) : Option TransactionId :=
  (xs.filter fun x => x.artifact = a).getLast?.map id

variable {xs : List Transaction} {x : Transaction} {a : ArtifactId} {i : TransactionId}

theorem lastOf_append (xs : List Transaction) (x : Transaction) (a : ArtifactId) :
    lastOf (xs ++ [x]) a = if a = x.artifact then some x.id else lastOf xs a := by
  by_cases ha : a = x.artifact
  · simp [lastOf, ha]
  · simp [lastOf, ha, Ne.symm ha]

theorem exists_of_lastOf (h : lastOf xs a = some i) : ∃ x ∈ xs, x.artifact = a ∧ x.id = i := by
  obtain ⟨x, hx, hi⟩ := Option.map_eq_some_iff.mp h
  obtain ⟨hm, ha⟩ := List.mem_filter.mp (List.mem_of_getLast? hx)
  exact ⟨x, hm, by simpa using ha, hi⟩

/-- The certificates read as the transactions, each of which keeps the certificate that it is read
from. -/
theorem map_parse_eq_iff {pending : List Certificate} :
    pending.map parse = xs.map .ok ↔
      pending = xs.map certificate ∧ ∀ x ∈ xs, parse x.certificate = .ok x := by
  induction pending generalizing xs with
  | nil =>
    cases xs with
    | nil => simp
    | cons x xs => simp
  | cons c pending ih =>
    cases xs with
    | nil => simp
    | cons x xs =>
      rw [List.map_cons, List.map_cons, List.cons.injEq, ih, List.map_cons, List.cons.injEq,
        List.forall_mem_cons]
      constructor
      · rintro ⟨hx, rfl, hxs⟩
        exact ⟨⟨(certificate_of_parse hx).symm, rfl⟩, parse_certificate hx, hxs⟩
      · rintro ⟨⟨rfl, rfl⟩, hx, hxs⟩
        exact ⟨hx, rfl, hxs⟩

end Transaction

namespace TransactionLog

variable {log more : TransactionLog} {a : ArtifactId} {x : Transaction} {xs : List Transaction}
variable {block : BlockId} {id : TransactionId} {pending : List Certificate} {e : StoreError}

theorem found?_latest (h : log.latest a ≠ .nil) : log.found? (log.latest a) ≠ none := by
  intro hnone
  unfold latest at h hnone
  cases hl : (log.of a).getLast? with
  | none => simp [hl] at h
  | some e =>
    rw [hl] at hnone
    exact found?_eq_none_iff.mp hnone e (mem_of_iff.mp (List.mem_of_getLast? hl)).1 rfl

/-- Whoever declares the latest transaction of its artifact declares one that is there. -/
theorem extends_of_latest (hf : log.found? x.id = none) (hl : log.latest x.artifact = x.previous) :
    log.Extends x where
  fresh := hf
  previous := fun hp => hl ▸ found?_latest (hl ▸ hp)
  latest := hl

theorem latest_append_map (log : TransactionLog) (block : BlockId) (xs : List Transaction)
    (a : ArtifactId) :
    latest (log ++ xs.map (LogEntry.mk block)) a =
      (Transaction.lastOf xs a).getD (log.latest a) := by
  induction xs using List.reverseRecOn with
  | nil => simp [Transaction.lastOf]
  | append_singleton xs x ih =>
    rw [List.map_append, ← List.append_assoc, List.map_singleton, latest_append,
      Transaction.lastOf_append, ih]
    by_cases ha : a = x.artifact
    · simp [ha]
    · simp [ha, Ne.symm ha]

theorem found?_append_map_eq_none_iff :
    found? (log ++ xs.map (LogEntry.mk block)) id = none ↔
      log.found? id = none ∧ id ∉ xs.map Transaction.id := by
  rw [found?_eq_none_iff, found?_eq_none_iff, List.forall_mem_append, List.forall_mem_map]
  simp [eq_comm]

/-- What a transaction is refused for, in the order of the checks. -/
theorem record_eq_error_iff :
    log.record block x = .error e ↔
      (log.found? x.id ≠ none ∧ .duplicateTransaction x.id = e) ∨
      (log.found? x.id = none ∧ (x.previous ≠ .nil ∧ log.found? x.previous = none) ∧
        .missingPrevious x.id x.previous = e) ∨
      (log.found? x.id = none ∧ (x.previous = .nil ∨ log.found? x.previous ≠ none) ∧
        log.latest x.artifact ≠ x.previous ∧
        .artifactConflict x.artifact (log.latest x.artifact) x.previous = e) := by
  unfold record
  by_cases hid : log.found? x.id = none
  · by_cases hp : x.previous ≠ .nil ∧ log.found? x.previous = none
    · simp [hid, hp]
    · have hdeclared : x.previous = .nil ∨ log.found? x.previous ≠ none := by
        rwa [not_and_or, not_not] at hp
      rw [if_neg hp]
      by_cases hl : log.latest x.artifact = x.previous
      · simp [hid, hp, hl]
      · simp [hid, hp, hl, hdeclared]
  · have hsome : (log.found? x.id).isSome := Option.isSome_iff_ne_none.mpr hid
    simp [hid, hsome]

theorem recordCertificate_eq_error_iff {c : Certificate} :
    log.recordCertificate block c = .error e ↔
      (∃ cause, Transaction.parse c = .error cause ∧ .invalidTransaction cause = e) ∨
        ∃ x, Transaction.parse c = .ok x ∧ log.record block x = .error e := by
  unfold recordCertificate
  cases Transaction.parse c <;> simp

/-- Every transaction extends the log and those before it. -/
def ExtendsAll (log : TransactionLog) (block : BlockId) (xs : List Transaction) : Prop :=
  ∀ n x, xs[n]? = some x → Extends (log ++ (xs.take n).map (LogEntry.mk block)) x

theorem extendsAll_append :
    log.ExtendsAll block (xs ++ [x]) ↔
      log.ExtendsAll block xs ∧ Extends (log ++ xs.map (LogEntry.mk block)) x := by
  constructor
  · intro h
    refine ⟨fun n y hy => ?_, ?_⟩
    · obtain ⟨hn, _⟩ := List.getElem?_eq_some_iff.mp hy
      have hx := h n y (by rw [List.getElem?_append_left hn, hy])
      rwa [List.take_append_of_le_length (Nat.le_of_lt hn)] at hx
    · simpa using h xs.length x (by simp)
  · rintro ⟨hxs, hx⟩ n y hy
    rcases Nat.lt_trichotomy n xs.length with hn | rfl | hn
    · rw [List.getElem?_append_left hn] at hy
      rw [List.take_append_of_le_length (Nat.le_of_lt hn)]
      exact hxs n y hy
    · obtain rfl : x = y := by simpa using hy
      simpa using hx
    · have hlen : (xs ++ [x]).length ≤ n := by simpa using Nat.succ_le_of_lt hn
      rw [List.getElem?_eq_none hlen] at hy
      cases hy

theorem recordAll_append (log : TransactionLog) (block : BlockId) (pending : List Certificate)
    (c : Certificate) :
    log.recordAll block (pending ++ [c]) = (do
      let more ← log.recordAll block pending
      more.recordCertificate block c) := by
  rw [recordAll, List.foldlM_append]
  simp only [List.foldlM_cons, List.foldlM_nil, bind_pure]
  rfl

/-- A batch is recorded exactly where all of it reads and extends the log. -/
theorem recordAll_eq_ok_iff :
    log.recordAll block pending = .ok more ↔
      ∃ xs, pending.map Transaction.parse = xs.map .ok ∧ log.ExtendsAll block xs ∧
        more = log ++ xs.map (LogEntry.mk block) := by
  induction pending using List.reverseRecOn generalizing more with
  | nil =>
    constructor
    · intro h
      cases h
      exact ⟨[], rfl, by simp [ExtendsAll], by simp⟩
    · rintro ⟨xs, hxs, _, rfl⟩
      obtain rfl : xs = [] := by simpa using hxs.symm
      simp [recordAll]
  | append_singleton pending c ih =>
    simp only [recordAll_append, bind_eq_ok_iff, ih, recordCertificate, mapError_eq_ok_iff,
      record_eq_ok_iff]
    constructor
    · rintro ⟨_, ⟨xs, hread, hall, rfl⟩, x, hx, he, rfl⟩
      exact ⟨xs ++ [x], by simp [hread, hx], extendsAll_append.mpr ⟨hall, he⟩, by simp⟩
    · rintro ⟨ys, hread, hall, rfl⟩
      rcases List.eq_nil_or_concat ys with rfl | ⟨xs, x, rfl⟩
      · simp at hread
      · rw [List.concat_eq_append] at hread hall ⊢
        obtain ⟨hinit, hlast⟩ :
            pending.map Transaction.parse = xs.map .ok ∧ Transaction.parse c = .ok x := by
          simpa using hread
        obtain ⟨hall, he⟩ := extendsAll_append.mp hall
        exact ⟨_, ⟨xs, hinit, hall, rfl⟩, x, hlast, he, by simp⟩

theorem recordAll_eq_ok (h : log.recordAll block pending = .ok more) :
    ∃ xs : List Transaction, xs.map Transaction.certificate = pending ∧
      (∀ x ∈ xs, Transaction.parse x.certificate = .ok x) ∧
      more = log ++ xs.map (LogEntry.mk block) := by
  obtain ⟨xs, hread, _, rfl⟩ := recordAll_eq_ok_iff.mp h
  obtain ⟨rfl, hparse⟩ := Transaction.map_parse_eq_iff.mp hread
  exact ⟨xs, rfl, hparse, rfl⟩

/-- A batch that stands in a valid log is accepted at its place. -/
theorem Valid.recordAll_of_prefix (h : more.Valid)
    (hx : ∀ x ∈ xs, Transaction.parse x.certificate = .ok x)
    (hp : log ++ xs.map (LogEntry.mk block) <+: more) :
    log.recordAll block (xs.map Transaction.certificate) =
      .ok (log ++ xs.map (LogEntry.mk block)) := by
  refine recordAll_eq_ok_iff.mpr ⟨xs, Transaction.map_parse_eq_iff.mpr ⟨rfl, hx⟩, ?_, rfl⟩
  intro n x hn
  have htake : xs.take (n + 1) = xs.take n ++ [x] := by
    rw [List.take_add_one, hn, Option.toList_some]
  have hstands : log ++ (xs.take n).map (LogEntry.mk block) ++ [⟨block, x⟩] <+:
      log ++ xs.map (LogEntry.mk block) := by
    have hmap := ((List.take_prefix (n + 1) xs).map (LogEntry.mk block))
    rw [htake, List.map_append] at hmap
    rw [List.append_assoc]
    exact (List.prefix_append_right_inj log).mpr hmap
  exact h.extends_of_prefix (hstands.trans hp)

/-- A batch fails where the certificates before one are recorded and that one is not. -/
theorem recordAll_eq_error_iff :
    log.recordAll block pending = .error e ↔
      ∃ before c after xs, pending = before ++ c :: after ∧
        before.map Transaction.parse = xs.map .ok ∧ log.ExtendsAll block xs ∧
        recordCertificate block (log ++ xs.map (LogEntry.mk block)) c = .error e := by
  rw [recordAll, foldlM_eq_error_iff]
  constructor
  · rintro ⟨before, c, after, more, rfl, hb, hc⟩
    obtain ⟨xs, hread, hall, rfl⟩ := recordAll_eq_ok_iff.mp hb
    exact ⟨before, c, after, xs, rfl, hread, hall, hc⟩
  · rintro ⟨before, c, after, xs, rfl, hread, hall, hc⟩
    exact ⟨before, c, after, _, rfl, recordAll_eq_ok_iff.mpr ⟨xs, hread, hall, rfl⟩, hc⟩

end TransactionLog

end SignedLedger
