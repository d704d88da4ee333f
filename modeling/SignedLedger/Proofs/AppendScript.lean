import SignedLedger.Proofs.EngineScript
import SignedLedger.Proofs.StoreRun

/-! The script of an append. The tables that it makes are those of `Tables.append`. A transaction of
the batch that is refused has been refused before anything is written for it, so that what an append
has staged when it fails are a missing root and the transactions before the refused one. -/

namespace SignedLedger

namespace Script

variable {α β : Type}

def fail (e : StoreError) : Script α :=
  .done (.error e)

def lookup (table : Table) (key : Bytes) : Script (Option Bytes) :=
  .get table key pure

def load? (decode : Bytes → Except StoreError α) (table : Table) (key : Bytes) :
    Script (Option α) := do
  match ← lookup table key with
  | none => pure none
  | some b => .done ((decode b).map some)

def store (table : Table) (key value : Bytes) : Script Unit :=
  .put table key value (pure ())

def putBlock (b : Block) : Script Unit :=
  store .blocks b.id.bytes b.encode

def putHead (b : Block) : Script Unit :=
  store .head headKey b.encode

def putHeight (height : UInt64) (id : BlockId) : Script Unit :=
  store .heights (heightKey height) id.bytes

def putTransaction (r : RecordedTransaction) : Script Unit :=
  store .transactions r.id.bytes r.encode

def putArtifact (a : Artifact) : Script Unit :=
  store .artifacts a.id.bytes a.encode

def extendArtifact (block : BlockId) (x : Transaction) : Script Artifact := do
  match ← load? Artifact.decode .artifacts x.artifact.bytes with
  | some a =>
    if a.last ≠ x.previous then fail (.artifactConflict a.id a.last x.previous)
    else pure { a with lastBlock := block, last := x.id }
  | none =>
    if x.previous ≠ .nil then fail (.artifactConflict x.artifact .nil x.previous)
    else pure (.start x.artifact block x.id)

def previousOf (x : Transaction) : Script (Option RecordedTransaction) :=
  if x.previous = .nil then pure none
  else do
    match ← load? RecordedTransaction.decode .transactions x.previous.bytes with
    | some r => pure (some r)
    | none => fail (.missingPrevious x.id x.previous)

def writeRecord (block : BlockId) (x : Transaction) (previous : Option RecordedTransaction)
    (artifact : Artifact) : Script Unit := do
  putTransaction
    { id := x.id, block, previous := x.previous, next := .nil, certificate := x.certificate }
  putArtifact artifact
  match previous with
  | some r => putTransaction { r with next := x.id }
  | none => pure ()

def record (block : BlockId) (x : Transaction) : Script Unit := do
  if (← lookup .transactions x.id.bytes).isSome then fail (.duplicateTransaction x.id)
  else do
    let previous ← previousOf x
    let artifact ← extendArtifact block x
    writeRecord block x previous artifact

def recordCertificate (block : BlockId) (c : Certificate) : Script Unit := do
  let x ← Script.done ((Transaction.parse c).mapError .invalidTransaction)
  record block x

def recordAll (block : BlockId) : List Certificate → Script Unit
  | [] => pure ()
  | c :: rest => do
    recordCertificate block c
    recordAll block rest

def certificate (s : BlockSigner) (now : UInt64) (h : BlockHeader) (pending : List Certificate) :
    Script Certificate :=
  .done ((s.certificate now h pending).mapError .certificate)

def createRoot (s : BlockSigner) (now : UInt64) : Script Block := do
  let header : BlockHeader :=
    { id := .root, previous := .nil, previousDigest := .zero 32, height := 0 }
  let c ← certificate s now header []
  let root : Block := { id := .root, previous := .nil, next := .nil, height := 0, certificate := c }
  putBlock root
  putHeight 0 root.id
  putHead root
  pure root

def headOrRoot (s : BlockSigner) (now : UInt64) : Script Block := do
  match ← load? Block.decode .head headKey with
  | some head => pure head
  | none => createRoot s now

def link (previous block : Block) : Script Unit := do
  putBlock block
  putBlock { previous with next := block.id }
  putHead block
  putHeight block.height block.id

def append (s : BlockSigner) (fresh : BlockId) (now : UInt64) (pending : List Certificate) :
    Script Block := do
  let previous ← headOrRoot s now
  let header : BlockHeader :=
    { id := fresh
      previous := previous.id
      previousDigest := previous.certificate.digest s.suite
      height := previous.height + 1 }
  let c ← certificate s now header pending
  recordAll fresh pending
  let block : Block :=
    { id := fresh
      previous := previous.id
      next := .nil
      height := header.height
      certificate := c }
  link previous block
  pure block

/-! What the scripts make of tables. -/

variable {s : BlockSigner} {block fresh : BlockId} {now : UInt64} {pending : List Certificate}

theorem effect_done (outcome : Except StoreError α) (t : Tables) :
    (done outcome).effect t = outcome.map fun a => (a, t) := by
  cases outcome <;> rfl

theorem effect_lookup (table : Table) (key : Bytes) (t : Tables) :
    (lookup table key).effect t = .ok (t.get? table key, t) := rfl

theorem effect_load? (decode : Bytes → Except StoreError α) (table : Table) (key : Bytes)
    (t : Tables) :
    (load? decode table key).effect t = (t.load? decode table key).map fun found => (found, t) := by
  unfold load? Tables.load?
  rw [effect_bind, effect_lookup]
  cases t.get? table key with
  | none => rfl
  | some b => exact effect_done _ t

theorem effect_extendArtifact (x : Transaction) (t : Tables) :
    (extendArtifact block x).effect t = (t.extendArtifact block x).map fun a => (a, t) := by
  unfold extendArtifact Tables.extendArtifact Tables.artifact?
  rw [effect_bind, effect_load?]
  rcases t.load? Artifact.decode .artifacts x.artifact.bytes with e | _ | a
  · rfl
  · simp only [map_ok, ok_bind]
    split <;> rfl
  · simp only [map_ok, ok_bind]
    split <;> rfl

theorem effect_previousOf (x : Transaction) (t : Tables) :
    (previousOf x).effect t = (t.previousOf x).map fun r => (r, t) := by
  unfold previousOf Tables.previousOf Tables.transaction?
  split
  · rfl
  rw [effect_bind, effect_load?]
  rcases t.load? RecordedTransaction.decode .transactions x.previous.bytes with e | _ | r <;> rfl

theorem effect_record (x : Transaction) (t : Tables) :
    (record block x).effect t = (t.record block x).map fun u => ((), u) := by
  unfold record Tables.record
  rw [effect_bind, effect_lookup, ok_bind]
  dsimp only
  split
  · rfl
  rw [effect_bind, effect_previousOf]
  rcases t.previousOf x with e | previous
  · rfl
  rw [map_ok, ok_bind, effect_bind, effect_extendArtifact, ok_bind]
  dsimp only
  rcases t.extendArtifact block x with e | artifact
  · rfl
  · cases previous <;> rfl

theorem effect_recordCertificate (c : Certificate) (t : Tables) :
    (recordCertificate block c).effect t = (t.recordCertificate block c).map fun u => ((), u) := by
  unfold recordCertificate Tables.recordCertificate
  rw [effect_bind, effect_done]
  cases Transaction.parse c with
  | error e => rfl
  | ok x => exact effect_record x t

theorem effect_recordAll (pending : List Certificate) (t : Tables) :
    (recordAll block pending).effect t = (t.recordAll block pending).map fun u => ((), u) := by
  induction pending generalizing t with
  | nil => rfl
  | cons c rest ih =>
    rw [recordAll, effect_bind, effect_recordCertificate, Tables.recordAll, List.foldlM_cons]
    cases t.recordCertificate block c with
    | error e => rfl
    | ok u => exact ih u

theorem effect_createRoot (t : Tables) : (createRoot s now).effect t = t.createRoot s now := by
  unfold createRoot Tables.createRoot certificate
  rw [effect_bind, effect_done]
  dsimp only
  rcases s.certificate now ⟨.root, .nil, .zero 32, 0⟩ [] with e | c <;> rfl

theorem effect_headOrRoot (t : Tables) : (headOrRoot s now).effect t = t.headOrRoot s now := by
  unfold headOrRoot Tables.headOrRoot Tables.head?
  rw [effect_bind, effect_load?]
  rcases t.load? Block.decode .head headKey with e | _ | head
  · rfl
  · exact effect_createRoot t
  · rfl

theorem effect_append (t : Tables) :
    (append s fresh now pending).effect t = t.append s fresh now pending := by
  unfold append Tables.append certificate
  rw [effect_bind, effect_headOrRoot]
  rcases t.headOrRoot s now with e | ⟨previous, v⟩
  · rfl
  simp only [ok_bind]
  rw [effect_bind, effect_done]
  rcases s.certificate now _ pending with e | c
  · rfl
  simp only [mapError_ok, map_ok, ok_bind]
  rw [effect_bind, effect_recordAll]
  cases v.recordAll fresh pending <;> rfl

/-! What has been written when a script fails. -/

theorem reads_lookup (table : Table) (key : Bytes) : (lookup table key).Reads :=
  fun _ => rfl

theorem reads_load? (decode : Bytes → Except StoreError α) (table : Table) (key : Bytes) :
    (load? decode table key).Reads := by
  refine (reads_lookup table key).bind fun found => ?_
  cases found <;> exact reads_done _

theorem reads_extendArtifact (block : BlockId) (y : Transaction) :
    (extendArtifact block y).Reads := by
  refine (reads_load? _ _ _).bind fun found => ?_
  cases found with
  | none =>
    dsimp only
    split <;> exact reads_done _
  | some a =>
    dsimp only
    split <;> exact reads_done _

theorem reads_previousOf (y : Transaction) : (previousOf y).Reads := by
  unfold previousOf
  split
  · exact reads_done _
  · refine (reads_load? _ _ _).bind fun found => ?_
    cases found <;> exact reads_done _

theorem guarded_writeRecord (block : BlockId) (y : Transaction)
    (previous : Option RecordedTransaction) (artifact : Artifact) :
    (writeRecord block y previous artifact).Guarded := by
  intro t u e h
  cases previous <;> cases h

/-- A transaction is refused before anything is written for it. -/
theorem guarded_recordCertificate (block : BlockId) (c : Certificate) :
    (recordCertificate block c).Guarded := by
  refine .after (fun y => .after (fun found => ?_) (reads_lookup _ _)) (reads_done _)
  split
  · exact (reads_done _).guarded
  · refine .after (fun previous => ?_) (reads_previousOf y)
    exact .after (guarded_writeRecord block y previous) (reads_extendArtifact block y)

theorem guarded_headOrRoot (s : BlockSigner) (now : UInt64) : (headOrRoot s now).Guarded := by
  refine .after (fun found => ?_) (reads_load? _ _ _)
  cases found with
  | some head => exact (reads_done _).guarded
  | none =>
    refine .after (fun c => ?_) (reads_done _)
    intro t u e h
    cases h

variable {t u v w : Tables} {e : StoreError} {c : Certificate} {before after : List Certificate}

theorem run_headOrRoot_eq_ok_iff {previous : Block} :
    (headOrRoot s now).run Tables.answer t = (.ok previous, v) ↔
      t.headOrRoot s now = .ok (previous, v) := by
  rw [← effect_eq_ok_iff, effect_headOrRoot]

theorem run_headOrRoot_eq_error_iff :
    (headOrRoot s now).run Tables.answer t = (.error e, u) ↔
      t.headOrRoot s now = .error e ∧ u = t := by
  rw [(guarded_headOrRoot s now).run_eq_error_iff, effect_headOrRoot]

theorem run_recordCertificate_eq_ok_iff :
    (recordCertificate block c).run Tables.answer t = (.ok (), v) ↔
      t.recordCertificate block c = .ok v := by
  rw [← effect_eq_ok_iff, effect_recordCertificate, map_eq_ok_iff]
  simp

theorem run_recordCertificate_eq_error_iff :
    (recordCertificate block c).run Tables.answer t = (.error e, u) ↔
      t.recordCertificate block c = .error e ∧ u = t := by
  rw [(guarded_recordCertificate block c).run_eq_error_iff, effect_recordCertificate]
  cases t.recordCertificate block c <;> simp

theorem run_recordAll_eq_error (h : (recordAll block pending).run Tables.answer t = (.error e, u)) :
    ∃ before c after, pending = before ++ c :: after ∧ t.recordAll block before = .ok u ∧
      u.recordCertificate block c = .error e := by
  induction pending generalizing t with
  | nil => cases h
  | cons c rest ih =>
    rcases run_bind_eq_error h with hc | ⟨_, v, hc, hrest⟩
    · obtain ⟨hrefused, rfl⟩ := run_recordCertificate_eq_error_iff.mp hc
      exact ⟨[], c, rest, rfl, rfl, hrefused⟩
    · obtain ⟨before, d, after, rfl, hbefore, hd⟩ := ih hrest
      refine ⟨c :: before, d, after, rfl, ?_, hd⟩
      rw [Tables.recordAll, List.foldlM_cons, run_recordCertificate_eq_ok_iff.mp hc]
      exact hbefore

theorem run_recordAll_refused (hw : t.recordAll block before = .ok w)
    (hc : w.recordCertificate block c = .error e) :
    (recordAll block (before ++ c :: after)).run Tables.answer t = (.error e, w) := by
  induction before generalizing t with
  | nil =>
    cases hw
    exact run_bind_of_error (run_recordCertificate_eq_error_iff.mpr ⟨hc, rfl⟩)
  | cons d rest ih =>
    rw [Tables.recordAll, List.foldlM_cons] at hw
    obtain ⟨v, hd, hrest⟩ := bind_eq_ok_iff.mp hw
    exact (run_bind_of_ok (run_recordCertificate_eq_ok_iff.mpr hd)).trans (ih hrest)

theorem run_certificate_eq_ok_iff {header : BlockHeader} :
    (certificate s now header pending).run Tables.answer t = (.ok c, u) ↔
      s.certificate now header pending = .ok c ∧ u = t := by
  rw [certificate, run, Prod.mk.injEq, mapError_eq_ok_iff, eq_comm (a := t)]

theorem run_certificate_eq_error_iff {header : BlockHeader} :
    (certificate s now header pending).run Tables.answer t = (.error e, u) ↔
      (∃ cause, s.certificate now header pending = .error cause ∧ e = .certificate cause) ∧
        u = t := by
  rw [certificate, run, Prod.mk.injEq, mapError_eq_error_iff, eq_comm (a := t)]
  simp only [eq_comm (a := e)]

end Script

namespace Tables

/-- That `c` is the first certificate of its batch to be refused, and that the tables would be `w`
by then, with the block `previous` as their head. -/
structure Rejects (s : BlockSigner) (fresh : BlockId) (now : UInt64) (before : List Certificate)
    (c : Certificate) (after : List Certificate) (t : Tables) (previous : Block) (w : Tables)
    (e : StoreError) : Prop where
  recorded : ∃ v, t.headOrRoot s now = .ok (previous, v) ∧ v.recordAll fresh before = .ok w
  sealed : ∃ d, s.certificate now (previous.nextHeader s.suite fresh) (before ++ c :: after) = .ok d
  refused : w.recordCertificate fresh c = .error e

/-- What an append has written when it fails: nothing before it has the head, then a root if it was
missing, and then the transactions before the one that is refused. -/
inductive Staged (s : BlockSigner) (fresh : BlockId) (now : UInt64) (pending : List Certificate)
    (t : Tables) : StoreError → Tables → Prop
  | head {e : StoreError} (h : t.headOrRoot s now = .error e) : Staged s fresh now pending t e t
  | certificate {previous : Block} {v : Tables} {cause : CertificateError}
    (h : t.headOrRoot s now = .ok (previous, v))
    (hc : s.certificate now (previous.nextHeader s.suite fresh) pending = .error cause) :
    Staged s fresh now pending t (.certificate cause) v
  | transaction {previous : Block} {w : Tables} {before after : List Certificate} {c : Certificate}
    {e : StoreError} (hp : pending = before ++ c :: after)
    (h : t.Rejects s fresh now before c after previous w e) : Staged s fresh now pending t e w

end Tables

namespace Script

variable {s : BlockSigner} {fresh : BlockId} {now : UInt64} {pending : List Certificate}
variable {t u : Tables} {e : StoreError}

/-- An append that fails has written what is known, whatever it fails for. -/
theorem run_append_eq_error_iff :
    (append s fresh now pending).run Tables.answer t = (.error e, u) ↔
      t.Staged s fresh now pending e u := by
  constructor
  · intro h
    rcases run_bind_eq_error h with hrun | ⟨previous, v, hp, hsealing⟩
    · obtain ⟨hhead, rfl⟩ := run_headOrRoot_eq_error_iff.mp hrun
      exact .head hhead
    have hhead := run_headOrRoot_eq_ok_iff.mp hp
    rcases run_bind_eq_error hsealing with hrun | ⟨d, w, hd, hrecording⟩
    · obtain ⟨⟨cause, hc, rfl⟩, rfl⟩ := run_certificate_eq_error_iff.mp hrun
      exact .certificate hhead hc
    obtain ⟨hsealed, rfl⟩ := run_certificate_eq_ok_iff.mp hd
    rcases run_bind_eq_error hrecording with hrun | ⟨_, w', _, hlink⟩
    · obtain ⟨before, c, after, rfl, hbefore, hc⟩ := run_recordAll_eq_error hrun
      exact .transaction rfl ⟨⟨_, hhead, hbefore⟩, ⟨d, hsealed⟩, hc⟩
    · cases hlink
  · intro h
    cases h with
    | head hhead => exact run_bind_of_error (run_headOrRoot_eq_error_iff.mpr ⟨hhead, rfl⟩)
    | certificate hhead hc =>
      refine (run_bind_of_ok (run_headOrRoot_eq_ok_iff.mpr hhead)).trans (run_bind_of_error ?_)
      exact run_certificate_eq_error_iff.mpr ⟨⟨_, hc, rfl⟩, rfl⟩
    | transaction hp h =>
      obtain ⟨v, hhead, hw⟩ := h.recorded
      obtain ⟨d, hd⟩ := h.sealed
      subst hp
      refine (run_bind_of_ok (run_headOrRoot_eq_ok_iff.mpr hhead)).trans ?_
      refine (run_bind_of_ok (run_certificate_eq_ok_iff.mpr ⟨hd, rfl⟩)).trans ?_
      exact run_bind_of_error (run_recordAll_refused hw h.refused)

end Script

end SignedLedger
