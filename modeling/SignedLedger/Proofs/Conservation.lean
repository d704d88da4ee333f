import SignedLedger.Proofs.Acceptance
import SignedLedger.Proofs.LedgerRun

/-! What goes in comes out, once and in order. A certificate that was accepted leaves the queue in a
block or with a discard, and is in the queue until then. Blocks are read back here as they were
returned, from the bytes of their certificates; whoever only reads a ledger does not change it. -/

namespace SignedLedger

/-- The certificate as it is kept: as far as its signature reaches where it is attested, and all of it
otherwise. -/
def Submission.kept (s : Submission) : Certificate :=
  if s.ledger.config.validateOnSubmit then
    match s.ledger.attestWith s.resolvers s.ledger.config.validateContracts s.certificate with
    | .ok (narrowed, _) => narrowed
    | .error _ => s.certificate
  else s.certificate

theorem Submission.kept_eq {s : Submission} {id : TransactionId} {x : Transaction}
    (h : s.outcome = .ok (id, x)) : s.kept = x.certificate := by
  obtain ⟨parsed, hopen, _, hkeeps⟩ := outcome_eq_ok_iff.mp h
  unfold Keeps at hkeeps
  unfold kept
  split at hkeeps
  · rename_i hv
    obtain ⟨height, a, hheight, ha, hx⟩ := hkeeps
    have hattested : s.ledger.attestWith s.resolvers s.ledger.config.validateContracts
        s.certificate = .ok (s.certificate.narrow a.visible, a) :=
      attestWith_eq_ok_iff.mpr ⟨height, hheight, ha, rfl⟩
    rw [if_pos hv, hattested]
    exact (Transaction.parse_eq_ok_iff.mp hx).2.2.2.2.symm
  · rename_i hv
    rw [if_neg hv, hkeeps]
    exact (Transaction.parse_eq_ok_iff.mp hopen.reads).2.2.2.2.symm

namespace Ledger

/-- What a call adds: what is kept of a submission that succeeds. -/
def accepted (l : Ledger) : LedgerCall → List Bytes
  | .submit entities contracts c =>
    match (l.submit entities contracts c).1 with
    | .ok _ => [(Submission.mk l entities contracts c).kept.visibleBytes]
    | .error _ => []
  | .append .. => []
  | .discard => []
  | .ensureRoot _ => []

/-- What a call gives back: what a block wraps that is appended, and what is discarded. -/
def released (l : Ledger) : LedgerCall → Except CodecError (List Bytes)
  | .submit .. => .ok []
  | .append fresh now =>
    match (l.append fresh now).1 with
    | .ok b => (b.certificate.fieldsOf .wrappedTransaction).map (List.map Field.value)
    | .error _ => .ok []
  | .discard => .ok (l.discard.1.map Certificate.visibleBytes)
  | .ensureRoot _ => .ok []

def inputs (l : Ledger) : List LedgerCall → List Bytes
  | [] => []
  | c :: calls => l.accepted c ++ (l.call c).inputs calls

def outputs (l : Ledger) : List LedgerCall → Except CodecError (List Bytes)
  | [] => .ok []
  | c :: calls => do
    let out ← l.released c
    let more ← (l.call c).outputs calls
    pure (out ++ more)

/-- What is queued, as it will be wrapped. -/
def held (l : Ledger) : List Bytes :=
  l.waiting.map Certificate.visibleBytes

variable {l : Ledger} {fresh : BlockId} {now : UInt64} {b : Block}

theorem submit_conserves (l : Ledger) (entities : EntityResolver) (contracts : ContractResolver)
    (c : Certificate) :
    l.held ++ l.accepted (.submit entities contracts c) =
      (l.submit entities contracts c).2.held := by
  rcases l.submit_cases entities contracts c with ⟨e, hs⟩ | ⟨id, x, ha, hs⟩
  · simp only [accepted, hs, List.append_nil]
  · have ho : Submission.outcome ⟨l, entities, contracts, c⟩ = .ok (id, x) := ha
    simp only [accepted, hs, Submission.kept_eq ho]
    simp [held, waiting, enqueue]

/-- A block wraps the queue as it was, and the queue is empty afterwards. -/
theorem append_conserves (hb : (l.append fresh now).1 = .ok b) :
    (b.certificate.fieldsOf .wrappedTransaction).map (List.map Field.value) = .ok l.held ∧
      (l.append fresh now).2.held = [] := by
  rcases l.append_cases fresh now with ⟨e, _, ha⟩ | ⟨b', t, ht, ha⟩
  · rw [ha] at hb
    cases hb
  · rw [ha] at hb ⊢
    cases hb
    obtain ⟨_, _, _, c, _, hc, _, hblock, _⟩ := Tables.append_eq_ok ht
    obtain ⟨found, hfound, hvalues⟩ := hc.wrapped_eq
    have hcertificate : b.certificate = c := congrArg Block.certificate hblock
    rw [hcertificate, hfound]
    exact ⟨congrArg Except.ok hvalues, rfl⟩

theorem call_conserves (l : Ledger) (c : LedgerCall) :
    ∃ out, l.released c = .ok out ∧ out ++ (l.call c).held = l.held ++ l.accepted c := by
  cases c with
  | submit entities contracts d => exact ⟨[], rfl, (l.submit_conserves entities contracts d).symm⟩
  | append fresh now =>
    simp only [released, call, accepted, List.append_nil]
    cases hb : (l.append fresh now).1 with
    | ok b =>
      obtain ⟨hout, hheld⟩ := append_conserves hb
      exact ⟨l.held, hout, by rw [hheld, List.append_nil]⟩
    | error e =>
      rcases l.append_cases fresh now with ⟨_, _, ha⟩ | ⟨_, _, _, ha⟩
      · exact ⟨[], rfl, by rw [ha]; rfl⟩
      · rw [ha] at hb
        cases hb
  | discard => exact ⟨l.held, rfl, by simp [held, waiting, call, discard, accepted]⟩
  | ensureRoot now => exact ⟨[], rfl, by simp [held, waiting, call, ensureRoot, accepted]⟩

theorem run_conserves (l : Ledger) (calls : List LedgerCall) :
    ∃ out, l.outputs calls = .ok out ∧ out ++ (l.run calls).held = l.held ++ l.inputs calls := by
  induction calls generalizing l with
  | nil => exact ⟨[], rfl, by simp [run, inputs]⟩
  | cons c calls ih =>
    obtain ⟨out, hout, hcall⟩ := l.call_conserves c
    obtain ⟨more, hmore, hrun⟩ := ih (l.call c)
    refine ⟨out ++ more, by simp [outputs, hout, hmore], ?_⟩
    calc out ++ more ++ (l.run (c :: calls)).held
        = out ++ (more ++ ((l.call c).run calls).held) := List.append_assoc ..
      _ = out ++ (l.call c).held ++ (l.call c).inputs calls := by rw [hrun, List.append_assoc]
      _ = l.held ++ l.inputs (c :: calls) := by rw [hcall, inputs, List.append_assoc]

/-- Nothing that is accepted is lost, repeated or reordered, whatever is called and whatever fails. -/
theorem start_conserves (config : LedgerConfig) (store : Store) (calls : List LedgerCall) :
    ∃ out, (start config store).outputs calls = .ok out ∧
      out ++ ((start config store).run calls).held = (start config store).inputs calls :=
  (start config store).run_conserves calls

end Ledger

end SignedLedger
