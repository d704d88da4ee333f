import SignedLedger.Ledger
import SignedLedger.Proofs.AppendOutcome
import SignedLedger.Proofs.Journal

/-! Runs of a ledger. A submission or a discard leaves the store alone, and any other call to the
ledger is one call to the store. An append that fails leaves the whole ledger alone. -/

namespace SignedLedger

/-- A call to a ledger, with what it is answered by: the resolvers of a submission, the identifier
and the time of a block. -/
inductive LedgerCall where
  | submit (entities : EntityResolver) (contracts : ContractResolver) (c : Certificate)
  | append (fresh : BlockId) (now : UInt64)
  | discard
  | ensureRoot (now : UInt64)

namespace Ledger

def call (l : Ledger) : LedgerCall → Ledger
  | .submit entities contracts c => (l.submit entities contracts c).2
  | .append fresh now => (l.append fresh now).2
  | .discard => l.discard.2
  | .ensureRoot now => (l.ensureRoot now).2

def run (l : Ledger) (calls : List LedgerCall) : Ledger :=
  calls.foldl call l

def waiting (l : Ledger) : List Certificate :=
  l.queue.map Transaction.certificate

def storeCalls (l : Ledger) : LedgerCall → List StoreCall
  | .submit .. => []
  | .append fresh now => [.append fresh now l.waiting]
  | .discard => []
  | .ensureRoot now => [.ensureRoot now]

/-- The ledger once its queue is committed to `store`. -/
def settled (l : Ledger) (store : Store) : Ledger :=
  { l.queue.foldl settle { l with store } with queue := [] }

def committed (l : Ledger) : LedgerCall → TransactionLog
  | .append fresh now =>
    match (l.append fresh now).1 with
    | .ok b => l.queue.map (LogEntry.mk b.id)
    | .error _ => []
  | .submit .. => []
  | .discard => []
  | .ensureRoot _ => []

/-- That `P` holds of every call of a run, in the state that it meets. -/
def Along (P : Ledger → LedgerCall → Prop) (l : Ledger) : List LedgerCall → Prop
  | [] => True
  | c :: calls => P l c ∧ (l.call c).Along P calls

instance {P : Ledger → LedgerCall → Prop} [∀ l c, Decidable (P l c)] :
    ∀ (l : Ledger) (calls : List LedgerCall), Decidable (l.Along P calls)
  | _, [] => .isTrue trivial
  | l, c :: calls =>
    have : Decidable ((l.call c).Along P calls) := instDecidableAlong (l.call c) calls
    inferInstanceAs (Decidable (P l c ∧ (l.call c).Along P calls))

/-- What the calls to the store may rely on. -/
def Admits (l : Ledger) (c : LedgerCall) : Prop :=
  ∀ sc ∈ l.storeCalls c, l.store.Admits sc

variable {l : Ledger} {c : LedgerCall} {calls : List LedgerCall}
variable {P : Ledger → LedgerCall → Prop} {I : Ledger → Prop}

/-- What holds after a run, if it held before and every call that may be made preserves it. -/
theorem Along.run (h : l.Along P calls) (hl : I l)
    (step : ∀ l c, I l → P l c → I (l.call c)) : I (l.run calls) := by
  induction calls generalizing l with
  | nil => exact hl
  | cons c calls ih => exact ih h.2 (step l c hl h.1)

theorem submit_cases (l : Ledger) (entities : EntityResolver) (contracts : ContractResolver)
    (c : Certificate) :
    (∃ e, l.submit entities contracts c = (.error e, l)) ∨
      ∃ id x, l.accept entities contracts c = .ok (id, x) ∧
        l.submit entities contracts c = (.ok id, l.enqueue id x) := by
  unfold submit
  cases l.accept entities contracts c with
  | error e => exact .inl ⟨e, rfl⟩
  | ok r => exact .inr ⟨r.1, r.2, rfl, rfl⟩

theorem append_cases (l : Ledger) (fresh : BlockId) (now : UInt64) :
    (∃ e, Tables.append l.store.signer fresh now l.waiting l.store.tables = .error e ∧
        l.append fresh now = (.error (.store e), l)) ∨
      ∃ b t, Tables.append l.store.signer fresh now l.waiting l.store.tables = .ok (b, t) ∧
        l.append fresh now = (.ok b, l.settled { l.store with tables := t }) := by
  unfold append Store.append Store.write waiting
  cases Tables.append l.store.signer fresh now (l.queue.map Transaction.certificate)
      l.store.tables with
  | error e => exact .inl ⟨e, rfl, rfl⟩
  | ok r => exact .inr ⟨r.1, r.2, rfl, rfl⟩

theorem mem_queue_of_committed {e : LogEntry} (he : e ∈ l.committed c) : e.transaction ∈ l.queue := by
  cases c with
  | append fresh now =>
    unfold committed at he
    dsimp only at he
    split at he
    · obtain ⟨x, hx, rfl⟩ := List.mem_map.mp he
      exact hx
    · cases he
  | submit => cases he
  | discard => cases he
  | ensureRoot => cases he

/-! Settling touches neither the configuration nor the store. -/

theorem foldl_settle_config (xs : List Transaction) : (xs.foldl settle l).config = l.config := by
  induction xs generalizing l with
  | nil => rfl
  | cons x xs ih => exact ih

theorem foldl_settle_store (xs : List Transaction) : (xs.foldl settle l).store = l.store := by
  induction xs generalizing l with
  | nil => rfl
  | cons x xs ih => exact ih

theorem settled_config (store : Store) : (l.settled store).config = l.config :=
  foldl_settle_config _

theorem settled_store (store : Store) : (l.settled store).store = store :=
  foldl_settle_store _

theorem call_store (l : Ledger) (c : LedgerCall) :
    (l.call c).store = l.store.run (l.storeCalls c) := by
  cases c with
  | submit entities contracts d =>
    rcases l.submit_cases entities contracts d with ⟨_, hs⟩ | ⟨_, _, _, hs⟩ <;>
      exact congrArg (store ∘ Prod.snd) hs
  | append fresh now =>
    rcases l.append_cases fresh now with ⟨e, ht, ha⟩ | ⟨b, t, ht, ha⟩
    · simp [call, ha, storeCalls, Store.run, Store.call, Store.answer, Store.append, Store.write, ht]
    · simp [call, ha, settled_store, storeCalls, Store.run, Store.call, Store.answer, Store.append,
        Store.write, ht]
  | discard => rfl
  | ensureRoot now => rfl

theorem call_config (l : Ledger) (c : LedgerCall) : (l.call c).config = l.config := by
  cases c with
  | submit entities contracts d =>
    rcases l.submit_cases entities contracts d with ⟨_, hs⟩ | ⟨_, _, _, hs⟩ <;>
      exact congrArg (config ∘ Prod.snd) hs
  | append fresh now =>
    rcases l.append_cases fresh now with ⟨_, _, ha⟩ | ⟨b, t, _, ha⟩
    · exact congrArg (config ∘ Prod.snd) ha
    · exact (congrArg (config ∘ Prod.snd) ha).trans (settled_config _)
  | discard => rfl
  | ensureRoot now => rfl

theorem run_config (l : Ledger) (calls : List LedgerCall) : (l.run calls).config = l.config := by
  induction calls generalizing l with
  | nil => rfl
  | cons c calls ih => exact (ih (l.call c)).trans (l.call_config c)

theorem call_signer (l : Ledger) (c : LedgerCall) : (l.call c).store.signer = l.store.signer := by
  rw [call_store, Store.run_signer]

theorem run_signer (l : Ledger) (calls : List LedgerCall) :
    (l.run calls).store.signer = l.store.signer := by
  induction calls generalizing l with
  | nil => rfl
  | cons c calls ih => exact (ih (l.call c)).trans (l.call_signer c)

theorem call_holds {h : BlockHistory} (hl : l.store.tables.Holds l.store.signer h)
    (hc : l.Admits c) : ∃ h', (l.call c).store.tables.Holds (l.call c).store.signer h' := by
  rw [call_signer, call_store]
  cases c with
  | submit => exact ⟨h, hl⟩
  | append fresh now => exact Store.call_holds hl (hc _ List.mem_cons_self)
  | discard => exact ⟨h, hl⟩
  | ensureRoot now => exact Store.call_holds hl (hc _ List.mem_cons_self)

theorem Along.exists_history (hc : l.Along Admits calls)
    (hl : ∃ h, l.store.tables.Holds l.store.signer h) :
    ∃ h, (l.run calls).store.tables.Holds (l.run calls).store.signer h :=
  hc.run (I := fun l => ∃ h, l.store.tables.Holds l.store.signer h) hl
    fun _ _ ⟨_, hh⟩ hc => call_holds hh hc

end Ledger

end SignedLedger
