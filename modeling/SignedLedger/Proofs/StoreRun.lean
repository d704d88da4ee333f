import SignedLedger.Proofs.BlockCertificate
import SignedLedger.Proofs.TransactionBatch
import SignedLedger.Proofs.TransactionIndex
import SignedLedger.Store
import SignedLedger.Suite.Checksum

/-! Runs of a store. A call that fails leaves the tables alone, so that only the calls that succeed
have to be looked at. What such a call does is said once for each of them. -/

namespace SignedLedger

def BlockHeader.root : BlockHeader :=
  { id := .root, previous := .nil, previousDigest := .zero 32, height := 0 }

/-- The block with a header, before any block follows it. -/
def BlockHeader.block (h : BlockHeader) (c : Certificate) : Block :=
  { id := h.id, previous := h.previous, next := .nil, height := h.height, certificate := c }

def Block.nextHeader (b : Block) (suite : Suite) (fresh : BlockId) : BlockHeader :=
  { id := fresh
    previous := b.id
    previousDigest := b.certificate.digest suite
    height := b.height + 1 }

namespace Tables

variable {s : BlockSigner} {now : UInt64} {fresh : BlockId} {pending : List Certificate}
variable {t u : Tables} {b : Block}

theorem createRoot_eq_ok (h : createRoot s now t = .ok (b, u)) :
    ∃ c, s.Certifies .root [] c ∧ b = BlockHeader.root.block c ∧
      u = ((t.putBlock b).putHeight 0 b.id).putHead b := by
  simp only [createRoot, bind_eq_ok_iff, mapError_eq_ok_iff, pure_eq_ok, Except.ok.injEq,
    Prod.mk.injEq] at h
  obtain ⟨c, hc, rfl, rfl⟩ := h
  exact ⟨c, BlockSigner.certifies_of_certificate hc, rfl, rfl⟩

theorem ensureRoot_eq_ok (h : ensureRoot s now t = .ok (b, u)) :
    t.block? .root = .ok (some b) ∧ u = t ∨
      t.block? .root = .ok none ∧ createRoot s now t = .ok (b, u) := by
  obtain ⟨found, hf, h⟩ := bind_eq_ok_iff.mp h
  cases found with
  | none => exact .inr ⟨hf, h⟩
  | some root =>
    cases h
    exact .inl ⟨hf, rfl⟩

theorem headOrRoot_eq_ok (h : headOrRoot s now t = .ok (b, u)) :
    t.head? = .ok (some b) ∧ u = t ∨ t.head? = .ok none ∧ createRoot s now t = .ok (b, u) := by
  obtain ⟨found, hf, h⟩ := bind_eq_ok_iff.mp h
  cases found with
  | none => exact .inr ⟨hf, h⟩
  | some head =>
    cases h
    exact .inl ⟨hf, rfl⟩

theorem append_eq_ok (h : append s fresh now pending t = .ok (b, u)) :
    ∃ previous v w c, headOrRoot s now t = .ok (previous, v) ∧
      s.Certifies (previous.nextHeader s.suite fresh) pending c ∧
      v.recordAll fresh pending = .ok w ∧
      b = (previous.nextHeader s.suite fresh).block c ∧ u = link previous b w := by
  simp only [append, bind_eq_ok_iff, mapError_eq_ok_iff, pure_eq_ok, Except.ok.injEq,
    Prod.mk.injEq] at h
  obtain ⟨⟨previous, v⟩, hp, c, hc, w, hw, rfl, rfl⟩ := h
  exact ⟨previous, v, w, c, hp, BlockSigner.certifies_of_certificate hc, hw, rfl, rfl⟩

/-! Blocks are written to other tables than transactions and artifacts. -/

theorem createRoot_indexes {log : TransactionLog} (h : t.Indexes log)
    (hc : createRoot s now t = .ok (b, u)) : u.Indexes log := by
  obtain ⟨c, _, _, rfl⟩ := createRoot_eq_ok hc
  exact h.congr rfl rfl

theorem headOrRoot_indexes {log : TransactionLog} (h : t.Indexes log)
    (hp : headOrRoot s now t = .ok (b, u)) : u.Indexes log := by
  rcases headOrRoot_eq_ok hp with ⟨_, rfl⟩ | ⟨_, hc⟩
  · exact h
  · exact createRoot_indexes h hc

theorem ensureRoot_indexes {log : TransactionLog} (h : t.Indexes log)
    (he : ensureRoot s now t = .ok (b, u)) : u.Indexes log := by
  rcases ensureRoot_eq_ok he with ⟨_, rfl⟩ | ⟨_, hc⟩
  · exact h
  · exact createRoot_indexes h hc

theorem record_eq_ok {block : BlockId} {x : Transaction} (h : t.record block x = .ok u) :
    ∃ previous r, u = t.recorded block x previous r := by
  unfold record at h
  split at h
  · cases h
  · obtain ⟨previous, _, h⟩ := bind_eq_ok_iff.mp h
    obtain ⟨r, _, h⟩ := bind_eq_ok_iff.mp h
    refine ⟨previous, r, ?_⟩
    cases previous <;> exact (Except.ok.inj h).symm

theorem recordAll_keeps {block : BlockId} (h : t.recordAll block pending = .ok u) :
    u.blocks = t.blocks ∧ u.heights = t.heights ∧ u.head = t.head := by
  induction pending generalizing t with
  | nil =>
    cases h
    exact ⟨rfl, rfl, rfl⟩
  | cons c rest ih =>
    rw [recordAll, List.foldlM_cons] at h
    obtain ⟨v, hc, h⟩ := bind_eq_ok_iff.mp h
    obtain ⟨x, _, hr⟩ := bind_eq_ok_iff.mp hc
    obtain ⟨previous, r, rfl⟩ := record_eq_ok hr
    obtain ⟨hb, hh, hd⟩ := ih h
    rw [hb, hh, hd]
    cases previous <;> exact ⟨rfl, rfl, rfl⟩

/-- The transactions of a block go to the end of the log. -/
theorem append_indexes {log : TransactionLog} (h : t.Indexes log)
    (ha : append s fresh now pending t = .ok (b, u)) :
    ∃ xs : List Transaction, xs.map Transaction.certificate = pending ∧
      (∀ x ∈ xs, Transaction.parse x.certificate = .ok x) ∧
      u.Indexes (log ++ xs.map (LogEntry.mk fresh)) := by
  obtain ⟨previous, v, w, c, hp, hc, hw, rfl, rfl⟩ := append_eq_ok ha
  have hsmall : ∀ d ∈ pending, d.visible < 2 ^ 64 := fun d hd =>
    Nat.lt_of_le_of_lt (hc.visible_le hd) (by decide)
  have hs := (headOrRoot_indexes h hp).recordAll fresh hsmall
  rw [hw] at hs
  generalize hl : log.recordAll fresh pending = r at hs
  cases hs with
  | ok hi =>
    obtain ⟨xs, hxs, hparse, rfl⟩ := TransactionLog.recordAll_eq_ok hl
    exact ⟨xs, hxs, hparse, hi.congr rfl rfl⟩

end Tables

/-- A call to a store. An append comes with the identifier that is generated for its block. -/
inductive StoreCall where
  | append (fresh : BlockId) (now : UInt64) (pending : List Certificate)
  | ensureRoot (now : UInt64)

namespace Store

def answer (s : Store) : StoreCall → Except StoreError Block × Store
  | .append fresh now pending => s.append fresh now pending
  | .ensureRoot now => s.ensureRoot now

def call (s : Store) (c : StoreCall) : Store :=
  (s.answer c).2

def run (s : Store) (calls : List StoreCall) : Store :=
  calls.foldl call s

variable {s : Store} {c : StoreCall}

theorem write_cases {α : Type} (s : Store) (body : Tables → Except StoreError (α × Tables)) :
    (∃ e, s.write body = (.error e, s)) ∨
      ∃ a t, body s.tables = .ok (a, t) ∧ s.write body = (.ok a, { s with tables := t }) := by
  unfold write
  cases body s.tables with
  | error e => exact .inl ⟨e, rfl⟩
  | ok r => exact .inr ⟨r.1, r.2, rfl, rfl⟩

theorem write_signer {α : Type} (body : Tables → Except StoreError (α × Tables)) :
    (s.write body).2.signer = s.signer := by
  rcases s.write_cases body with ⟨_, hs⟩ | ⟨_, _, _, hs⟩ <;> rw [hs]

theorem call_signer (s : Store) (c : StoreCall) : (s.call c).signer = s.signer := by
  cases c <;> exact write_signer _

theorem run_signer (s : Store) (calls : List StoreCall) : (s.run calls).signer = s.signer := by
  induction calls generalizing s with
  | nil => rfl
  | cons c calls ih => exact (ih (s.call c)).trans (call_signer s c)

/-- What holds of the tables after a call, if it held before and both operations preserve it. -/
theorem call_induction {P : Tables → Prop} (h : P s.tables)
    (append : ∀ fresh now pending b t, c = .append fresh now pending →
      Tables.append s.signer fresh now pending s.tables = .ok (b, t) → P t)
    (ensureRoot : ∀ now b t, c = .ensureRoot now →
      Tables.ensureRoot s.signer now s.tables = .ok (b, t) → P t) : P (s.call c).tables := by
  cases c with
  | append fresh now pending =>
    rcases s.write_cases (Tables.append s.signer fresh now pending) with ⟨_, hs⟩ | ⟨b, t, ht, hs⟩
    · exact (congrArg (P ∘ tables ∘ Prod.snd) hs).mpr h
    · exact (congrArg (P ∘ tables ∘ Prod.snd) hs).mpr (append fresh now pending b t rfl ht)
  | ensureRoot now =>
    rcases s.write_cases (Tables.ensureRoot s.signer now) with ⟨_, hs⟩ | ⟨b, t, ht, hs⟩
    · exact (congrArg (P ∘ tables ∘ Prod.snd) hs).mpr h
    · exact (congrArg (P ∘ tables ∘ Prod.snd) hs).mpr (ensureRoot now b t rfl ht)

end Store

/-! A signer and transactions to try statements on. -/

namespace Sample

def signer : BlockSigner :=
  ⟨.checksum 1 4 4, ⟨.ofNat 16 1⟩, [7]⟩

def artifact : ArtifactId :=
  ⟨.ofNat 16 2⟩

/-- An unsigned transaction that starts the artifact. -/
def starting (id : TransactionId) : Transaction :=
  { certificate := .ofBytes (FieldList.written .short
      [CertificateType.field ⟨0x0100⟩, Tag.transactionId.identifier id,
        Tag.artifactId.identifier artifact])
    type := ⟨0x0100⟩
    id
    artifact
    previous := .nil }

def appending (block : BlockId) (xs : List Transaction) : StoreCall :=
  .append block 0 (xs.map Transaction.certificate)

end Sample

end SignedLedger
