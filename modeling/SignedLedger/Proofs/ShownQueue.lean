import SignedLedger.Proofs.LedgerRun
import SignedLedger.Proofs.Replay

/-! The queue as far as it can be seen. A ledger never looks at the bytes that its queued
certificates no longer show, so that queues which show the same are committed, discarded and
continued alike. -/

namespace SignedLedger

theorem BlockSigner.certificate_shown (s : BlockSigner) (now : UInt64) (h : BlockHeader)
    (pending : List Certificate) :
    s.certificate now h (pending.map Certificate.shown) = s.certificate now h pending := by
  have hlayout : s.layout now h (pending.map Certificate.shown) = s.layout now h pending := by
    simp [layout, Tag.certificate]
  have hsize : s.expectedSize (pending.map Certificate.shown) = s.expectedSize pending := by
    simp [expectedSize, Function.comp_def]
  rw [certificate, certificate, hlayout, hsize]

theorem Tables.append_shown (s : BlockSigner) (fresh : BlockId) (now : UInt64)
    (pending : List Certificate) (t : Tables) :
    append s fresh now (pending.map Certificate.shown) t = append s fresh now pending t := by
  simp only [append, s.certificate_shown, recordAll_shown]

namespace Ledger

/-- The ledger with what is visible of its queue. -/
def shown (l : Ledger) : Ledger :=
  { l with queue := l.queue.map Transaction.shown }

variable {l m : Ledger}

theorem shown_shown (l : Ledger) : l.shown.shown = l.shown := by
  have hshown : ∀ x : Transaction, x.shown.shown = x.shown := by
    intro x
    rw [Transaction.shown, Transaction.shown, Certificate.shown_shown]
  simp [shown, hshown]

theorem foldl_settle_queue (xs queue : List Transaction) :
    xs.foldl settle { l with queue } = { xs.foldl settle l with queue } := by
  induction xs generalizing l with
  | nil => rfl
  | cons x xs ih => exact ih (l := l.settle x)

theorem settled_shown (l : Ledger) (store : Store) : l.shown.settled store = l.settled store := by
  have hmap : (l.queue.map Transaction.shown).foldl settle { l.shown with store } =
      l.queue.foldl settle { l.shown with store } := List.foldl_map
  have hqueue := foldl_settle_queue (l := { l with store }) l.queue (l.queue.map Transaction.shown)
  simp only [settled, shown] at hmap hqueue ⊢
  rw [hmap, hqueue]

theorem accept_shown (l : Ledger) (entities : EntityResolver) (contracts : ContractResolver)
    (c : Certificate) : l.shown.accept entities contracts c = l.accept entities contracts c := by
  unfold accept
  rw [show l.shown.queue.length = l.queue.length from List.length_map _]
  rfl

theorem enqueue_shown (l : Ledger) (id : TransactionId) (x : Transaction) :
    (l.shown.enqueue id x).shown = (l.enqueue id x).shown := by
  have hqueue := congrArg Ledger.queue l.shown_shown
  simp only [shown] at hqueue
  simp [shown, enqueue, hqueue]

theorem append_shown (l : Ledger) (fresh : BlockId) (now : UInt64) :
    (l.shown.append fresh now).1 = (l.append fresh now).1 ∧
      (l.shown.append fresh now).2.shown = (l.append fresh now).2.shown := by
  have hwaiting : l.shown.queue.map Transaction.certificate =
      (l.queue.map Transaction.certificate).map Certificate.shown := by
    simp [shown, Function.comp_def, Transaction.shown]
  have hstore : l.shown.store.append fresh now (l.shown.queue.map Transaction.certificate) =
      l.store.append fresh now (l.queue.map Transaction.certificate) := by
    simp only [hwaiting, Store.append, Store.write, Tables.append_shown]
    rfl
  unfold append
  rw [hstore]
  rcases l.store.append fresh now (l.queue.map Transaction.certificate) with ⟨e | b, store⟩
  · exact ⟨rfl, shown_shown { l with store }⟩
  · exact ⟨rfl, congrArg shown (l.settled_shown store)⟩

theorem discard_shown (l : Ledger) : l.shown.discard.2 = l.discard.2 := by
  have hids : (l.queue.map Transaction.shown).map Transaction.id = l.queue.map Transaction.id := by
    rw [List.map_map]
    rfl
  simp only [discard, shown, hids]

theorem call_shown (l : Ledger) (c : LedgerCall) : (l.shown.call c).shown = (l.call c).shown := by
  cases c with
  | submit entities contracts c =>
    simp only [call, submit, accept_shown]
    cases l.accept entities contracts c with
    | error e => exact l.shown_shown
    | ok r => exact l.enqueue_shown r.1 r.2
  | append fresh now => exact (l.append_shown fresh now).2
  | discard => exact congrArg shown l.discard_shown
  | ensureRoot now => exact shown_shown { l with store := (l.store.ensureRoot now).2 }

/-- Ledgers that show the same go on to show the same. -/
theorem run_congr (h : l.shown = m.shown) (calls : List LedgerCall) :
    (l.run calls).shown = (m.run calls).shown := by
  induction calls generalizing l m with
  | nil => exact h
  | cons c calls ih => exact ih (by rw [← l.call_shown, h, m.call_shown])

end Ledger

end SignedLedger
