import SignedLedger.Proofs.StoreRun

/-! The journal of a run: the transactions of the appends that succeed, in the order in which they
were appended. The tables of transactions and artifacts are an index of it after every run. -/

namespace SignedLedger

def LogEntry.ofCertificate? (block : BlockId) (c : Certificate) : Option LogEntry :=
  match Transaction.parse c with
  | .ok x => some ⟨block, x⟩
  | .error _ => none

theorem LogEntry.ofCertificate?_eq_some_iff {block : BlockId} {c : Certificate} {e : LogEntry} :
    ofCertificate? block c = some e ↔
      Transaction.parse c = .ok e.transaction ∧ e.block = block := by
  obtain ⟨b, x⟩ := e
  unfold ofCertificate?
  cases Transaction.parse c with
  | error e => simp
  | ok y => simp [and_comm, eq_comm]

theorem filterMap_ofCertificate? {xs : List Transaction} (block : BlockId)
    (hx : ∀ x ∈ xs, Transaction.parse x.certificate = .ok x) :
    (xs.map Transaction.certificate).filterMap (LogEntry.ofCertificate? block) =
      xs.map (LogEntry.mk block) := by
  induction xs with
  | nil => rfl
  | cons x xs ih =>
    obtain ⟨hhead, htail⟩ := List.forall_mem_cons.mp hx
    have hsome : LogEntry.ofCertificate? block x.certificate = some ⟨block, x⟩ :=
      LogEntry.ofCertificate?_eq_some_iff.mpr ⟨hhead, rfl⟩
    rw [List.map_cons, List.filterMap_cons_some hsome, ih htail, List.map_cons]

namespace Store

def entries (s : Store) : StoreCall → TransactionLog
  | .append fresh now pending =>
    match (s.append fresh now pending).1 with
    | .ok b => pending.filterMap (LogEntry.ofCertificate? b.id)
    | .error _ => []
  | .ensureRoot _ => []

def journal (s : Store) : List StoreCall → TransactionLog
  | [] => []
  | c :: calls => s.entries c ++ (s.call c).journal calls

variable {s : Store} {c : StoreCall} {e : LogEntry} {log : TransactionLog}

theorem exists_of_mem_entries (he : e ∈ s.entries c) :
    ∃ fresh now pending d, c = .append fresh now pending ∧ d ∈ pending ∧
      Transaction.parse d = .ok e.transaction := by
  cases c with
  | ensureRoot now => cases he
  | append fresh now pending =>
    unfold entries at he
    dsimp only at he
    split at he
    · obtain ⟨d, hd, hx⟩ := List.mem_filterMap.mp he
      exact ⟨fresh, now, pending, d, rfl, hd, (LogEntry.ofCertificate?_eq_some_iff.mp hx).1⟩
    · cases he

theorem exists_of_mem_journal {calls : List StoreCall} (he : e ∈ s.journal calls) :
    ∃ fresh now pending d, .append fresh now pending ∈ calls ∧ d ∈ pending ∧
      Transaction.parse d = .ok e.transaction := by
  induction calls generalizing s with
  | nil => cases he
  | cons c calls ih =>
    rcases List.mem_append.mp he with he | he
    · obtain ⟨fresh, now, pending, d, rfl, hd, hx⟩ := exists_of_mem_entries he
      exact ⟨fresh, now, pending, d, List.mem_cons_self, hd, hx⟩
    · obtain ⟨fresh, now, pending, d, hc, hd, hx⟩ := ih he
      exact ⟨fresh, now, pending, d, List.mem_cons_of_mem c hc, hd, hx⟩

theorem journal_parsed (s : Store) (calls : List StoreCall) : (s.journal calls).Parsed := by
  intro e he
  obtain ⟨_, _, _, d, _, _, hx⟩ := exists_of_mem_journal he
  exact Transaction.parse_certificate hx

theorem call_indexes (h : s.tables.Indexes log) :
    (s.call c).tables.Indexes (log ++ s.entries c) := by
  cases c with
  | append fresh now pending =>
    rcases s.write_cases (Tables.append s.signer fresh now pending) with ⟨_, hw⟩ | ⟨b, t, ht, hw⟩
    · have ha : s.append fresh now pending = _ := hw
      simpa [call, answer, entries, ha] using h
    · have ha : s.append fresh now pending = _ := hw
      obtain ⟨xs, rfl, hparse, hi⟩ := Tables.append_indexes h ht
      obtain ⟨_, _, _, _, _, _, _, hb, _⟩ := Tables.append_eq_ok ht
      have hid : b.id = fresh := congrArg Block.id hb
      simpa only [call, answer, entries, ha, hid, filterMap_ofCertificate? fresh hparse] using hi
  | ensureRoot now =>
    rcases s.write_cases (Tables.ensureRoot s.signer now) with ⟨_, hw⟩ | ⟨b, t, ht, hw⟩
    · have ha : s.ensureRoot now = _ := hw
      simpa [call, answer, entries, ha] using h
    · have ha : s.ensureRoot now = _ := hw
      simpa [call, answer, entries, ha] using Tables.ensureRoot_indexes h ht

theorem run_indexes (calls : List StoreCall) (h : s.tables.Indexes log) :
    (s.run calls).tables.Indexes (log ++ s.journal calls) := by
  induction calls generalizing s log with
  | nil => simpa [run, journal] using h
  | cons c calls ih =>
    have hc := ih (call_indexes (c := c) h)
    rwa [List.append_assoc] at hc

theorem run_start_indexes (signer : BlockSigner) (calls : List StoreCall) :
    ((start signer).run calls).tables.Indexes ((start signer).journal calls) := by
  have h : (start signer).tables.Indexes [] := Tables.indexes_empty
  exact run_indexes calls h

end Store

end SignedLedger
