import SignedLedger.Proofs.Acceptance
import SignedLedger.Proofs.QueueCommit
import SignedLedger.Proofs.ShownQueue
import SignedLedger.Proofs.UnsignedTrailer

/-! Bytes behind the signature of a submission. A submission is read before it is attested, and so
while all of its bytes are visible. What is missing from the signed fields is then looked for behind
the signature. Apart from what this first reading comes to, the bytes there make no difference. -/

namespace SignedLedger

namespace Field

variable {w : HeaderWidth} {t : Tag} {j : Nat} {b rest : Bytes} {f : Field} {found : Option Field}

/-- Where the first byte lies does not matter to what is read. -/
theorem takeFirst_shift (h : takeFirst w j b = .ok (f, rest)) (k : Nat) :
    ∃ g, takeFirst w k b = .ok (g, rest) ∧ g.tag = f.tag ∧ g.value = f.value := by
  obtain ⟨hf, hb, _, _⟩ := takeFirst_eq_ok_iff.mp h
  exact ⟨⟨f.tag, f.value, k, k + w.size + f.value.length⟩,
    takeFirst_eq_ok_iff.mpr ⟨hf, hb, rfl, rfl⟩, rfl, rfl⟩

theorem findFirstFrom_shift (h : findFirstFrom t j b = .ok found) (k : Nat) :
    ∃ more, findFirstFrom t k b = .ok more ∧ more.map value = found.map value := by
  fun_induction findFirstFrom t j b generalizing k with
  | case1 =>
    obtain rfl := Except.ok.inj h
    exact ⟨none, by simp [findFirstFrom], rfl⟩
  | case2 => cases h
  | case3 j b hne f rest hread ht =>
    obtain ⟨g, hg, htag, hvalue⟩ := takeFirst_shift hread k
    obtain rfl := Except.ok.inj h
    exact ⟨some g, by rw [findFirstFrom_eq_ite hg, if_pos (htag.trans ht)], congrArg some hvalue⟩
  | case4 j b hne f rest hread ht ih =>
    obtain ⟨g, hg, htag, _⟩ := takeFirst_shift hread k
    rw [findFirstFrom_eq_ite hg, if_neg (htag ▸ ht)]
    exact ih h g.stop

end Field

namespace Certificate

variable {c d : Certificate} {p t : Bytes} {before : List Field} {last f : Field} {tag : Tag}
variable {k : Identifier.Kind}

theorem field_append (hf : (ofBytes p).field tag = .ok (some f)) (t : Bytes) :
    (ofBytes (p ++ t)).field tag = .ok (some f) := by
  rw [field_eq, visibleBytes_ofBytes, Field.findFirstFrom_eq_some_iff] at hf ⊢
  obtain ⟨fields, rest, hl, hfits, rfl, hrest⟩ := hf
  exact ⟨fields, rest ++ t, hl, hfits, List.append_assoc .., hrest⟩

theorem identifier_append {i : Identifier k} (h : (ofBytes p).identifier tag = .ok (some i))
    (t : Bytes) : (ofBytes (p ++ t)).identifier tag = .ok (some i) := by
  obtain ⟨f, hf, hvalue⟩ := (identifier_eq_some_iff tag).mp h
  exact (identifier_eq_some_iff tag).mpr ⟨f, field_append hf t, hvalue⟩

theorem certificateType_append {type : CertificateType}
    (h : (ofBytes p).certificateType = .ok (some type)) (t : Bytes) :
    (ofBytes (p ++ t)).certificateType = .ok (some type) := by
  obtain ⟨f, hf, hvalue⟩ := certificateType_eq_some_iff.mp h
  exact certificateType_eq_some_iff.mpr ⟨f, field_append hf t, hvalue⟩

theorem exists_identifier_of_field {found more : Option Field} {i : Option (Identifier k)}
    (hi : c.identifier tag = .ok i) (hc : c.field tag = .ok found) (hd : d.field tag = .ok more)
    (h : more.map Field.value = found.map Field.value) : d.identifier tag = .ok i := by
  rw [identifier, hc] at hi
  rw [identifier, hd]
  cases found with
  | none =>
    obtain rfl : more = none := by simpa using h
    exact hi
  | some f =>
    obtain ⟨g, rfl, hvalue⟩ := Option.map_eq_some_iff.mp h
    simpa [hvalue] using hi

namespace EndsSigned

/-- What is not among the fields is looked for behind them. -/
theorem field_append_of_none (h : EndsSigned p before last)
    (hnone : ∀ f ∈ before ++ [last], f.tag ≠ tag) (t : Bytes) :
    (ofBytes (p ++ t)).field tag = Field.findFirstFrom tag p.length t := by
  obtain ⟨fields, hfits, hwritten, hplaced⟩ := h.exists_written
  have hfind : (fields.placed .short 0).find? (fun f => f.tag = tag) = none := by
    rw [← hplaced, List.find?_eq_none]
    exact fun f hf => by simpa using hnone f hf
  rw [field_eq, visibleBytes_ofBytes, hwritten, Field.findFirstFrom_written hfits, hfind,
    Nat.zero_add]

theorem exists_identifier_iff (h : EndsSigned p before last)
    (hnone : ∀ f ∈ before ++ [last], f.tag ≠ tag) :
    (∃ i : Option (Identifier k), (ofBytes (p ++ t)).identifier tag = .ok i) ↔
      ∃ i : Option (Identifier k), (ofBytes t).identifier tag = .ok i := by
  have hfield := h.field_append_of_none hnone t
  have halone : (ofBytes t).field tag = Field.findFirstFrom tag 0 t := by
    rw [field_eq, visibleBytes_ofBytes]
  have hok : ∀ {c : Certificate} {i : Option (Identifier k)}, c.identifier tag = .ok i →
      ∃ found, c.field tag = .ok found := by
    intro c i hi
    rw [identifier, bind_eq_ok_iff] at hi
    obtain ⟨found, hfound, _⟩ := hi
    exact ⟨found, liftCodec_eq_ok_iff.mp hfound⟩
  constructor
  · rintro ⟨i, hi⟩
    obtain ⟨found, hfound⟩ := hok hi
    obtain ⟨more, hmore, hvalue⟩ := Field.findFirstFrom_shift (hfield ▸ hfound) 0
    exact ⟨i, exists_identifier_of_field hi hfound (halone.trans hmore) hvalue⟩
  · rintro ⟨i, hi⟩
    obtain ⟨found, hfound⟩ := hok hi
    obtain ⟨more, hmore, hvalue⟩ := Field.findFirstFrom_shift (halone ▸ hfound) p.length
    exact ⟨i, exists_identifier_of_field hi hfound (hfield.trans hmore) hvalue⟩

end EndsSigned

end Certificate

namespace Transaction

open Certificate

variable {c : Certificate} {p t : Bytes} {before : List Field} {last : Field} {x : Transaction}

theorem parse_of_identifiers {type : CertificateType} {id : TransactionId} {artifact : ArtifactId}
    (htype : c.certificateType = .ok (some type))
    (hid : c.identifier .transactionId = .ok (some id))
    (hartifact : c.identifier .artifactId = .ok (some artifact)) :
    parse c = (structural (c.identifier .previousTransactionId)).map fun previous =>
      ⟨c, type, id, artifact, previous.getD .nil⟩ := by
  obtain ⟨f, hf, hvalue⟩ := (identifier_eq_some_iff .transactionId).mp hid
  have hrequire := (c.require_eq_ok_iff .transactionId).mpr hf
  have hvalue' := (Identifier.ofField_eq_ok_iff (t := .transactionId)).mpr hvalue
  unfold parse
  simp only [htype, hrequire, hvalue', hartifact, structural_ok, ok_bind]
  cases (c.identifier .previousTransactionId : Except _ (Option TransactionId)) <;> rfl

/-- That a transaction that is read from the fields `before` is read with the bytes `t` behind them
as well: the fields name the transaction before it, or looking for it in `t` does not fail. -/
def Harmless (before : List Field) (t : Bytes) : Prop :=
  (∃ f ∈ before, f.tag = .previousTransactionId) ∨
    ∃ i : Option TransactionId, (ofBytes t).identifier .previousTransactionId = .ok i

theorem harmless_iff (h : EndsSigned p before last) {previous : Option TransactionId}
    (hp : (ofBytes p).identifier .previousTransactionId = .ok previous) (t : Bytes) :
    Harmless before t ↔ ∃ i : Option TransactionId,
      (ofBytes (p ++ t)).identifier .previousTransactionId = .ok i := by
  by_cases hf : ∃ f ∈ before, f.tag = .previousTransactionId
  · obtain ⟨g, hg⟩ : ∃ g, (before ++ [last]).find?
        (fun f => f.tag = .previousTransactionId) = some g := by
      obtain ⟨f, hm, ht⟩ := hf
      exact Option.isSome_iff_exists.mp
        (List.find?_isSome.mpr ⟨f, List.mem_append_left _ hm, decide_eq_true ht⟩)
    have halone := h.field_of_find? (c := ofBytes p) (t := []) (by simp) hg
    have htrailed := h.field_of_find? (visibleBytes_ofBytes (p ++ t)) hg
    have hboth := exists_identifier_of_field hp halone htrailed rfl
    exact ⟨fun _ => ⟨_, hboth⟩, fun _ => .inl hf⟩
  · have hnone : ∀ f ∈ before ++ [last], f.tag ≠ .previousTransactionId := by
      intro f hm ht
      rcases List.mem_append.mp hm with hm | hm
      · exact hf ⟨f, hm, ht⟩
      · rw [List.mem_singleton.mp hm, h.signature] at ht
        cases ht
    rw [h.exists_identifier_iff hnone, Harmless, or_iff_right hf]

theorem parse_append (h : EndsSigned p before last) (hx : parse (.ofBytes p) = .ok x) (t : Bytes) :
    (Harmless before t → (parse (.ofBytes (p ++ t))).map id = .ok x.id) ∧
      (¬ Harmless before t → ∃ cause, parse (.ofBytes (p ++ t)) = .error (.structural cause)) := by
  obtain ⟨htype, hid, hartifact, ⟨previous, hprevious, _⟩, _⟩ := parse_eq_ok_iff.mp hx
  have hparse := parse_of_identifiers (certificateType_append htype t) (identifier_append hid t)
    (identifier_append hartifact t)
  rw [harmless_iff h hprevious, hparse]
  cases (ofBytes (p ++ t)).identifier .previousTransactionId with
  | error cause => exact ⟨fun ⟨_, hi⟩ => (nomatch hi), fun _ => ⟨cause, rfl⟩⟩
  | ok i => exact ⟨fun _ => rfl, fun hn => absurd ⟨i, rfl⟩ hn⟩

end Transaction

namespace Ledger

open Certificate

/-- That submitting `c` and submitting `d` come to the same: the answer is the same, and so is the
ledger but for what is no longer visible of its queue, at once and after any further calls. -/
structure SubmitsAlike (l : Ledger) (entities : EntityResolver) (contracts : ContractResolver)
    (c d : Certificate) : Prop where
  result : (l.submit entities contracts c).1 = (l.submit entities contracts d).1
  queued : (l.submit entities contracts c).2.shown = (l.submit entities contracts d).2.shown
  later : ∀ calls, ((l.submit entities contracts c).2.run calls).shown =
    ((l.submit entities contracts d).2.run calls).shown

/-- What the bytes `t` behind the signed bytes `p` do to a submission: nothing where both read
alike. A transaction that is accepted on its own is refused with them where they keep it from being
read, and what is refused on its own is never accepted with them. -/
structure Trailed (l : Ledger) (entities : EntityResolver) (contracts : ContractResolver)
    (p : Bytes) (before : List Field) (t : Bytes) : Prop where
  alike : (Transaction.parse (.ofBytes (p ++ t))).map Transaction.id =
      (Transaction.parse (.ofBytes p)).map Transaction.id →
    l.SubmitsAlike entities contracts (.ofBytes (p ++ t)) (.ofBytes p)
  harmless : ∀ x, Transaction.parse (.ofBytes p) = .ok x → Transaction.Harmless before t →
    l.SubmitsAlike entities contracts (.ofBytes (p ++ t)) (.ofBytes p)
  harmful : ∀ id, (l.submit entities contracts (.ofBytes p)).1 = .ok id →
    ¬ Transaction.Harmless before t → ∃ cause,
      l.submit entities contracts (.ofBytes (p ++ t)) =
        (.error (.attestation (.structural cause)), l)
  refused : ∀ e, (l.submit entities contracts (.ofBytes p)).1 = .error e →
    ∃ e', l.submit entities contracts (.ofBytes (p ++ t)) = (.error e', l)

variable {l : Ledger} {entities : EntityResolver} {contracts : ContractResolver}
variable {c d : Certificate} {p t : Bytes} {before : List Field} {last : Field} {v : Bool}
variable {r : Resolvers}

theorem attestWith_append (h : EndsSigned p before last) (hr : r.contracts.ReadsVisible)
    (t : Bytes) :
    (l.attestWith r v (.ofBytes (p ++ t))).map (fun a => (a.1.shown, a.2)) =
      (l.attestWith r v (.ofBytes p)).map fun a => (a.1.shown, a.2) := by
  have hp : (ofBytes p).visibleBytes = p ++ [] := by simp
  have ht : (ofBytes (p ++ t)).visibleBytes = p ++ t := visibleBytes_ofBytes _
  unfold attestWith
  cases l.headHeight with
  | error e => rfl
  | ok height =>
    have hsame : (ofBytes (p ++ t)).attestation l.store.suite r { height, validateContract := v } =
        (ofBytes p).attestation l.store.suite r { height, validateContract := v } :=
      Attestation.attestAt_eq h hr ht
    simp only [mapError_ok, ok_bind, hsame]
    cases ha : (ofBytes p).attestation l.store.suite r { height, validateContract := v } with
    | error e => rfl
    | ok a =>
      have hvisible : a.visible = last.stop :=
        (Attestation.visible_of_attestAt h hp ha).trans h.stop_eq.symm
      have hshown : ((ofBytes (p ++ t)).narrow a.visible).shown =
          ((ofBytes p).narrow a.visible).shown := by
        rw [hvisible, Certificate.shown, Certificate.shown, h.narrow_visibleBytes ht,
          h.narrow_visibleBytes hp]
      simp [hshown]

/-- The checks before the attestation, of the identifier that is read first. -/
def vet (l : Ledger) (first : Except AttestationError TransactionId) :
    Except LedgerError TransactionId := do
  if l.config.maxPending ≤ l.queue.length then throw (.queueFull l.queue.length)
  let id ← first.mapError .attestation
  if l.statuses.get? id = some .pending then throw (.duplicatePending id)
  if (← (l.store.tables.transaction? id).mapError .store).isSome then throw (.alreadyRecorded id)
  pure id

/-- What is read of the certificate that the attestation hands back. -/
def keep (attested : Except LedgerError (Certificate × Attestation)) :
    Except LedgerError Transaction := do
  let (narrowed, _) ← attested
  (Transaction.parse narrowed).mapError .attestation

theorem accept_eq (hv : l.config.validateOnSubmit = true) :
    l.accept entities contracts c =
      (l.vet ((Transaction.parse c).map Transaction.id)).bind fun id =>
        (keep (l.attestWith { entities, artifacts := l.pendingState, contracts }
          l.config.validateContracts c)).map fun x => (id, x) := by
  unfold accept vet keep
  by_cases hfull : l.config.maxPending ≤ l.queue.length
  · simp only [if_pos hfull]
    rfl
  simp only [if_neg hfull, if_pos hv]
  cases Transaction.parse c with
  | error e => rfl
  | ok parsed =>
    simp only [map_ok, mapError_ok, ok_bind]
    split
    · rfl
    cases l.store.tables.transaction? parsed.id with
    | error e => rfl
    | ok found =>
      simp only [mapError_ok, ok_bind]
      split
      · rfl
      cases l.attestWith { entities, artifacts := l.pendingState, contracts }
          l.config.validateContracts c with
      | error e => rfl
      | ok a => cases hx : Transaction.parse a.1 <;> simp [hx, Except.bind]

theorem keep_congr {a b : Except LedgerError (Certificate × Attestation)}
    (h : a.map (fun a => (a.1.shown, a.2)) = b.map fun a => (a.1.shown, a.2)) :
    (keep a).map Transaction.shown = (keep b).map Transaction.shown := by
  have hkeep : ∀ a : Except LedgerError (Certificate × Attestation),
      (keep a).map Transaction.shown = keep (a.map fun a => (a.1.shown, a.2)) := by
    intro a
    cases a with
    | error e => rfl
    | ok a =>
      simp only [keep, map_ok, ok_bind, Transaction.parse_shown]
      cases Transaction.parse a.1 <;> rfl
  rw [hkeep, hkeep, h]

theorem accept_congr (hv : l.config.validateOnSubmit = true)
    (hread : (Transaction.parse c).map Transaction.id = (Transaction.parse d).map Transaction.id)
    (hattest : ∀ r : Resolvers, r.contracts = contracts → ∀ v,
      (l.attestWith r v c).map (fun a => (a.1.shown, a.2)) =
        (l.attestWith r v d).map fun a => (a.1.shown, a.2)) :
    (l.accept entities contracts c).map (fun a => (a.1, a.2.shown)) =
      (l.accept entities contracts d).map fun a => (a.1, a.2.shown) := by
  have hkeep := keep_congr
    (hattest ⟨entities, l.pendingState, contracts⟩ rfl l.config.validateContracts)
  have hshown : ∀ (id : TransactionId) (x : Except LedgerError Transaction),
      (x.map fun x => (id, x)).map (fun a => (a.1, a.2.shown)) =
        (x.map Transaction.shown).map fun x => (id, x) := by
    intro id x
    cases x <;> rfl
  rw [accept_eq hv, accept_eq hv, hread]
  cases l.vet ((Transaction.parse d).map Transaction.id) with
  | error e => rfl
  | ok id =>
    simp only [Except.bind, hshown]
    rw [hkeep]

theorem submitsAlike_of_accept
    (h : (l.accept entities contracts c).map (fun a => (a.1, a.2.shown)) =
      (l.accept entities contracts d).map fun a => (a.1, a.2.shown)) :
    l.SubmitsAlike entities contracts c d := by
  have hsubmit : (l.submit entities contracts c).1 = (l.submit entities contracts d).1 ∧
      (l.submit entities contracts c).2.shown = (l.submit entities contracts d).2.shown := by
    unfold submit
    cases hc : l.accept entities contracts c with
    | error e =>
      cases hd : l.accept entities contracts d with
      | error e' =>
        rw [hc, hd] at h
        obtain rfl : e = e' := Except.error.inj h
        exact ⟨rfl, rfl⟩
      | ok b =>
        rw [hc, hd] at h
        cases h
    | ok a =>
      cases hd : l.accept entities contracts d with
      | error e =>
        rw [hc, hd] at h
        cases h
      | ok b =>
        rw [hc, hd] at h
        obtain ⟨id, x⟩ := a
        obtain ⟨id', y⟩ := b
        obtain ⟨rfl, hxy⟩ := Prod.mk.inj (Except.ok.inj h)
        have hxy : x.shown = y.shown := hxy
        have hartifact : x.shown.artifact = y.shown.artifact := congrArg Transaction.artifact hxy
        change x.artifact = y.artifact at hartifact
        exact ⟨rfl, by simp [shown, enqueue, hartifact, hxy]⟩
  exact ⟨hsubmit.1, hsubmit.2, fun calls => run_congr hsubmit.2 calls⟩

theorem submitsAlike_append (hv : l.config.validateOnSubmit = true) (entities : EntityResolver)
    (hr : contracts.ReadsVisible) (h : EndsSigned p before last)
    (hread : (Transaction.parse (.ofBytes (p ++ t))).map Transaction.id =
      (Transaction.parse (.ofBytes p)).map Transaction.id) :
    l.SubmitsAlike entities contracts (.ofBytes (p ++ t)) (.ofBytes p) :=
  submitsAlike_of_accept (accept_congr hv hread fun _ hcontracts _ =>
    attestWith_append h (hcontracts ▸ hr) t)

theorem reads_alike_of_accept (hv : l.config.validateOnSubmit = true) (h : EndsSigned p before last)
    {id : TransactionId} {x : Transaction}
    (ha : l.accept entities contracts (.ofBytes (p ++ t)) = .ok (id, x)) :
    (Transaction.parse (.ofBytes (p ++ t))).map Transaction.id =
      (Transaction.parse (.ofBytes p)).map Transaction.id := by
  let s : Submission := ⟨l, entities, contracts, .ofBytes (p ++ t)⟩
  have ho : s.outcome = .ok (id, x) := ha
  obtain ⟨parsed, hopen, hid, _⟩ := Submission.outcome_eq_ok_iff.mp ho
  obtain ⟨a, fields, message, signature, hx⟩ := Submission.exists_validates ho hv
  obtain ⟨height, hheight, hattest, _⟩ := hx.attested
  have hvisible : a.visible = last.stop :=
    (Attestation.visible_of_attestAt h (visibleBytes_ofBytes _) hattest).trans h.stop_eq.symm
  have hshown : x.certificate.shown = .ofBytes p := by
    rw [hx.certificate, hvisible, Certificate.shown,
      h.narrow_visibleBytes (visibleBytes_ofBytes (p ++ t))]
  have hparse := Transaction.parse_certificate_shown (Submission.outcome_parse ho)
  rw [hshown] at hparse
  have hreads : Transaction.parse (.ofBytes (p ++ t)) = .ok parsed := hopen.reads
  have hsame : parsed.id = x.id := hid.trans (Submission.outcome_id ho)
  rw [hreads, hparse]
  exact congrArg Except.ok hsame

/-- Whatever trails a submission, it has no say but in whether the submission can be read. -/
theorem submit_trailed (l : Ledger) (hv : l.config.validateOnSubmit = true)
    (entities : EntityResolver) (hr : contracts.ReadsVisible) (h : EndsSigned p before last)
    (t : Bytes) :
    l.Trailed entities contracts p before t where
  alike := submitsAlike_append hv entities hr h
  harmless := by
    intro x hx ht
    refine submitsAlike_append hv entities hr h ?_
    rw [(Transaction.parse_append h hx t).1 ht, hx]
    rfl
  harmful := by
    intro id hid ht
    rcases l.submit_cases entities contracts (.ofBytes p) with ⟨e, hs⟩ | ⟨i, x, ha, hs⟩
    · rw [hs] at hid
      cases hid
    · have ho : Submission.outcome ⟨l, entities, contracts, .ofBytes p⟩ = .ok (i, x) := ha
      obtain ⟨parsed, hopen, _⟩ := Submission.outcome_eq_ok_iff.mp ho
      have hroom : ¬ l.config.maxPending ≤ l.queue.length := Nat.not_le.mpr hopen.room
      obtain ⟨cause, hcause⟩ := (Transaction.parse_append h hopen.reads t).2 ht
      refine ⟨cause, ?_⟩
      have haccept : l.accept entities contracts (.ofBytes (p ++ t)) =
          .error (.attestation (.structural cause)) := by
        rw [accept_eq hv, hcause, vet, if_neg hroom]
        rfl
      rw [submit, haccept]
  refused := by
    intro e he
    rcases l.submit_cases entities contracts (.ofBytes (p ++ t)) with ⟨e', hs⟩ | ⟨id, x, ha, hs⟩
    · exact ⟨e', hs⟩
    · have halike := (submitsAlike_append hv entities hr h
        (reads_alike_of_accept hv h ha)).result
      rw [hs, he] at halike
      cases halike

end Ledger

/-! A transaction that starts an artifact, and so names no transaction before it. -/

theorem ContractResolver.readsVisible_none : ContractResolver.none.ReadsVisible := by
  intro type artifact contract hcontract
  cases hcontract

namespace Sample

def started : Bytes :=
  (signed ⟨.ofNat 16 4⟩ .nil).raw

def startedFields : List Field :=
  let draft : TransactionDraft := { type := ⟨0x0100⟩, id := ⟨.ofNat 16 4⟩, artifact }
  ((draft.layout signer.suite 0).named author.bytes).placed .short 0

theorem endsSigned_started :
    Certificate.EndsSigned started startedFields ⟨.signature, started.drop 110, 104, 114⟩ where
  fields := by decide +kernel
  signature := rfl
  first := by decide +kernel
  signer := ⟨⟨.signerId, author.bytes, 82, 104⟩, by decide +kernel, rfl⟩

/-- A field behind the signature, which names a transaction of its own. -/
def claiming : Bytes :=
  FieldList.written .short [Tag.transactionId.identifier (⟨.ofNat 16 5⟩ : TransactionId)]

end Sample

namespace Ledger

theorem submit_trailed_started :
    (Sample.ledger.submit Sample.entities .none (.ofBytes Sample.started)).1 =
      .ok ⟨.ofNat 16 4⟩ ∧
    Sample.ledger.Trailed Sample.entities .none Sample.started Sample.startedFields
      Sample.claiming ∧
    Transaction.Harmless Sample.startedFields Sample.claiming ∧
    Sample.ledger.Trailed Sample.entities .none Sample.started Sample.startedFields [255] ∧
    ¬ Transaction.Harmless Sample.startedFields [255] := by
  have htrailed : ∀ t, Sample.ledger.Trailed Sample.entities .none Sample.started
      Sample.startedFields t := fun t =>
    submit_trailed Sample.ledger rfl Sample.entities ContractResolver.readsVisible_none
      Sample.endsSigned_started t
  have hnone : ∀ f ∈ Sample.startedFields, f.tag ≠ .previousTransactionId := by decide +kernel
  refine ⟨by decide +kernel, htrailed _, .inr ⟨none, by decide +kernel⟩, htrailed _, ?_⟩
  rintro (⟨f, hf, ht⟩ | ⟨i, hi⟩)
  · exact hnone f hf ht
  · have herror : (Certificate.ofBytes [255]).identifier .previousTransactionId =
        (.error (.codec (.truncatedHeader 0 1 6)) :
          Except CertificateError (Option TransactionId)) := by decide +kernel
    rw [herror] at hi
    cases hi

/-- A byte behind the signature keeps a transaction from being accepted. -/
theorem not_submitsAlike_started :
    ¬ ∀ (config : LedgerConfig) (signer : BlockSigner) (calls : List LedgerCall)
      (entities : EntityResolver) (contracts : ContractResolver) (p t : Bytes)
      (before : List Field) (last : Field), config.validateOnSubmit = true →
      contracts.ReadsVisible → Certificate.EndsSigned p before last →
      ((start config (.start signer)).run calls).SubmitsAlike entities contracts
        (.ofBytes (p ++ t)) (.ofBytes p) := by
  intro h
  have halike := h {} Sample.signer [] Sample.entities .none Sample.started [255] _ _ rfl
    ContractResolver.readsVisible_none Sample.endsSigned_started
  have haccepted : (Sample.ledger.submit Sample.entities .none (.ofBytes Sample.started)).1 =
      .ok ⟨.ofNat 16 4⟩ := by decide +kernel
  have hrefused : (Sample.ledger.submit Sample.entities .none
      (.ofBytes (Sample.started ++ [255]))).1 =
      .error (.attestation (.structural (.codec (.truncatedHeader 114 1 6)))) := by decide +kernel
  have hsame := hrefused.symm.trans (halike.result.trans haccepted)
  cases hsame

end Ledger

end SignedLedger
