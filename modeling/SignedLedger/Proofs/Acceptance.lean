import SignedLedger.Ledger
import SignedLedger.Proofs.TransactionIndex
import SignedLedger.Proofs.TrustedCertificate

/-! What is accepted for the queue. A submission is read twice, once as it comes and once as far as
its signature reaches. Both readings give the same identifier, and everything else that is queued
comes from the signed fields. -/

namespace SignedLedger

/-- A certificate as it is submitted, with the ledger at that moment and the resolvers. -/
structure Submission where
  ledger : Ledger
  entities : EntityResolver
  contracts : ContractResolver
  certificate : Certificate

namespace Submission

def resolvers (s : Submission) : Resolvers :=
  { entities := s.entities, artifacts := s.ledger.pendingState, contracts := s.contracts }

def options (s : Submission) (height : UInt64) : AttestOptions :=
  { height, validateContract := s.ledger.config.validateContracts }

def outcome (s : Submission) : Except LedgerError (TransactionId × Transaction) :=
  s.ledger.accept s.entities s.contracts s.certificate

/-- That the attestation at the height of the head succeeds with `a`, for a signer whose key verifies
`signature`, the first one of the certificate, over `message`, the bytes of `fields` before it. -/
structure Attested (s : Submission) (a : Attestation) (fields : FieldList)
    (message signature : Bytes) : Prop where
  attested : ∃ height, s.ledger.headHeight = .ok height ∧
    s.certificate.attestation s.ledger.store.suite s.resolvers (s.options height) = .ok a ∧
    Attestation.Vouched s.ledger.store.suite s.entities height fields message signature a.signer
  signs : s.certificate.Signs fields message signature
  size : a.visible = Certificate.signedSize message signature

end Submission

/-- That the fields say what transaction `x` says. -/
structure FieldList.Describes (fields : FieldList) (x : Transaction) : Prop where
  type : fields.lookup .certificateType = some (bigEndian 2 x.type.number.toNat)
  id : fields.lookup .transactionId = some x.id.bytes
  artifact : fields.lookup .artifactId = some x.artifact.bytes
  previous : ∃ p : Option TransactionId,
    fields.lookup .previousTransactionId = p.map Identifier.bytes ∧ p.getD .nil = x.previous

namespace Certificate.Signs

variable {c : Certificate} {fields : FieldList} {message signature : Bytes} {x y : Transaction}

theorem parse_narrow (h : c.Signs fields message signature) :
    Transaction.parse (c.narrow (signedSize message signature)) = .ok x ↔
      fields.Describes x ∧ x.certificate = c.narrow (signedSize message signature) := by
  rw [Transaction.parse_eq_ok_iff, h.certificateType_narrow, h.identifier_narrow (by decide),
    h.identifier_narrow (by decide)]
  simp only [h.identifier_narrow (t := .previousTransactionId) (by decide)]
  constructor
  · rintro ⟨htype, hid, hartifact, hprevious, hc⟩
    exact ⟨⟨htype, hid, hartifact, hprevious⟩, hc⟩
  · rintro ⟨hd, hc⟩
    exact ⟨hd.type, hd.id, hd.artifact, hd.previous, hc⟩

/-- What trails the signature does not come first. -/
theorem id_eq_of_parse (h : c.Signs fields message signature) (hd : fields.Describes x)
    (hy : Transaction.parse c = .ok y) : y.id = x.id := by
  obtain ⟨f, hf, hvalue, _⟩ := h.field_of_lookup hd.id
  obtain ⟨g, hg, hgvalue⟩ :=
    (Certificate.identifier_eq_some_iff .transactionId).mp (Transaction.parse_eq_ok_iff.mp hy).2.1
  rw [hf, Except.ok.injEq, Option.some.injEq] at hg
  exact Identifier.bytes_inj.mp (by rw [← hgvalue, ← hg, hvalue])

end Certificate.Signs

namespace Submission

variable {s : Submission} {a : Attestation} {id : TransactionId} {x parsed : Transaction}

/-- The checks before an attestation: there is room, and the identifier is neither pending nor
recorded. -/
structure Open (s : Submission) (parsed : Transaction) : Prop where
  reads : Transaction.parse s.certificate = .ok parsed
  room : s.ledger.queue.length < s.ledger.config.maxPending
  notPending : s.ledger.statuses.get? parsed.id ≠ some .pending
  notRecorded : s.ledger.store.tables.transaction? parsed.id = .ok none

theorem attestWith_eq_ok_iff {l : Ledger} {r : Resolvers} {v : Bool} {c d : Certificate} :
    l.attestWith r v c = .ok (d, a) ↔
      ∃ height, l.headHeight = .ok height ∧
        c.attestation l.store.suite r { height, validateContract := v } = .ok a ∧
        d = c.narrow a.visible := by
  simp only [Ledger.attestWith, bind_eq_ok_iff, mapError_eq_ok_iff, pure_eq_ok, Except.ok.injEq,
    Prod.mk.injEq]
  constructor
  · rintro ⟨height, hh, b, hb, rfl, rfl⟩
    exact ⟨height, hh, hb, rfl⟩
  · rintro ⟨height, hh, hb, rfl⟩
    exact ⟨height, hh, a, hb, rfl, rfl⟩

/-- That `x` is queued where `parsed` is read: what is read as far as the signature reaches, or just
`parsed` where nothing is validated. -/
def Keeps (s : Submission) (parsed x : Transaction) : Prop :=
  if s.ledger.config.validateOnSubmit then
    ∃ height a, s.ledger.headHeight = .ok height ∧
      s.certificate.attestation s.ledger.store.suite s.resolvers (s.options height) = .ok a ∧
      Transaction.parse (s.certificate.narrow a.visible) = .ok x
  else x = parsed

theorem outcome_eq_ok_iff :
    s.outcome = .ok (id, x) ↔ ∃ parsed, s.Open parsed ∧ parsed.id = id ∧ s.Keeps parsed x := by
  unfold outcome Ledger.accept Keeps
  simp only [throw_eq_error, error_bind, ite_error_eq_ok_iff, bind_eq_ok_iff, mapError_eq_ok_iff]
  constructor
  · rintro ⟨hroom, parsed, hparsed, hpending, found, hfound, hrecorded, h⟩
    obtain rfl : found = none := by simpa using hrecorded
    refine ⟨parsed, ⟨hparsed, Nat.not_le.mp hroom, hpending, hfound⟩, ?_⟩
    split at h
    · rename_i hv
      obtain ⟨⟨narrowed, a⟩, ha, h⟩ := bind_eq_ok_iff.mp h
      obtain ⟨height, hh, hattested, rfl⟩ := attestWith_eq_ok_iff.mp ha
      obtain ⟨y, hy, h⟩ := bind_eq_ok_iff.mp h
      cases h
      exact ⟨rfl, by rw [if_pos hv]; exact ⟨height, a, hh, hattested, mapError_eq_ok_iff.mp hy⟩⟩
    · rename_i hv
      cases h
      exact ⟨rfl, by rw [if_neg hv]⟩
  · rintro ⟨parsed, ho, rfl, h⟩
    refine ⟨Nat.not_le.mpr ho.room, parsed, ho.reads, ho.notPending, none, ho.notRecorded, by simp, ?_⟩
    split at h
    · rename_i hv
      obtain ⟨height, a, hh, hattested, hy⟩ := h
      have ha : s.ledger.attestWith s.resolvers s.ledger.config.validateContracts s.certificate =
          .ok (s.certificate.narrow a.visible, a) :=
        attestWith_eq_ok_iff.mpr ⟨height, hh, hattested, rfl⟩
      rw [if_pos hv, bind_eq_ok_iff]
      refine ⟨_, ha, ?_⟩
      simp [hy]
    · rename_i hv
      rw [if_neg hv, h]
      rfl

theorem exists_attested {height : UInt64} (hh : s.ledger.headHeight = .ok height)
    (ha : s.certificate.attestation s.ledger.store.suite s.resolvers (s.options height) = .ok a) :
    ∃ fields message signature, s.Attested a fields message signature ∧
      ∃ artifact : Option ArtifactId, fields.lookup .artifactId = artifact.map Identifier.bytes ∧
        ∀ i ∈ artifact, Attestation.Continues s.ledger.pendingState fields i := by
  have ht := (Attestation.attestAt_eq_ok_iff_trusted (Nat.le_refl maxChainDepth)).mp ha
  rw [Nat.sub_self] at ht
  have hstands : ∃ fields, Attestation.Stands s.ledger.store.suite s.resolvers (s.options height) 0
      s.certificate fields a.signer a.visible := by
    cases ht with
    | single h _ => exact ⟨_, h⟩
    | nested h _ _ _ => exact ⟨_, h⟩
  obtain ⟨fields, ⟨message, signature, hs, hv, hsize⟩, artifact, hartifact, hcontinues, _⟩ := hstands
  exact ⟨fields, message, signature, ⟨⟨height, hh, ha, hv⟩, hs, hsize⟩, artifact, hartifact,
    hcontinues rfl⟩

/-- That `x` is what the signed fields of an attested submission say. -/
structure Validates (s : Submission) (x : Transaction) (a : Attestation) (fields : FieldList)
    (message signature : Bytes) : Prop extends s.Attested a fields message signature where
  describes : fields.Describes x
  certificate : x.certificate = s.certificate.narrow a.visible
  continues : Attestation.Continues s.ledger.pendingState fields x.artifact

theorem exists_validates (h : s.outcome = .ok (id, x))
    (hv : s.ledger.config.validateOnSubmit = true) :
    ∃ a fields message signature, s.Validates x a fields message signature := by
  obtain ⟨parsed, _, _, hk⟩ := outcome_eq_ok_iff.mp h
  rw [Keeps, if_pos hv] at hk
  obtain ⟨height, a, hh, ha, hx⟩ := hk
  obtain ⟨fields, message, signature, hs, artifact, hartifact, hcontinues⟩ := exists_attested hh ha
  rw [hs.size, hs.signs.parse_narrow, ← hs.size] at hx
  obtain ⟨hd, hc⟩ := hx
  rw [hd.artifact] at hartifact
  obtain ⟨i, rfl, hi⟩ := Option.map_eq_some_iff.mp hartifact.symm
  have hartifact : i = x.artifact := Identifier.bytes_inj.mp hi
  exact ⟨a, fields, message, signature, hs, hd, hc, hartifact ▸ hcontinues i rfl⟩

theorem Validates.previous_eq {fields : FieldList} {message signature : Bytes}
    (h : s.Validates x a fields message signature) :
    ∃ latest, s.ledger.pendingState x.artifact = .ok latest ∧ x.previous = latest.getD .nil := by
  obtain ⟨p, hp, hprevious⟩ := h.describes.previous
  obtain ⟨previous, latest, hfield, hstate, heq⟩ := h.continues
  have hinj : Function.Injective (Identifier.bytes : TransactionId → Bytes) := fun _ _ =>
    Identifier.bytes_inj.mp
  obtain rfl : p = previous := Option.map_injective hinj (hp.symm.trans hfield)
  exact ⟨latest, hstate, by rw [← hprevious, heq]⟩

theorem outcome_id (h : s.outcome = .ok (id, x)) : id = x.id := by
  obtain ⟨parsed, ho, rfl, hk⟩ := outcome_eq_ok_iff.mp h
  by_cases hv : s.ledger.config.validateOnSubmit = true
  · obtain ⟨a, fields, message, signature, hx⟩ := exists_validates h hv
    exact hx.signs.id_eq_of_parse hx.describes ho.reads
  · rw [Keeps, if_neg hv] at hk
    rw [hk]

theorem outcome_parse (h : s.outcome = .ok (id, x)) : Transaction.parse x.certificate = .ok x := by
  obtain ⟨parsed, ho, _, hk⟩ := outcome_eq_ok_iff.mp h
  by_cases hv : s.ledger.config.validateOnSubmit = true
  · rw [Keeps, if_pos hv] at hk
    obtain ⟨_, _, _, _, hx⟩ := hk
    exact Transaction.parse_certificate hx
  · rw [Keeps, if_neg hv] at hk
    exact hk ▸ Transaction.parse_certificate ho.reads

end Submission

end SignedLedger
