import SignedLedger.Proofs.DoubleSpend

/-! The chains of artifacts. The links from each transaction to the next one lead through the
transactions of an artifact, in the order in which they were recorded, from the first to the last
transaction of its record. This takes that no transaction has the zero identifier, which ends a
chain. -/

namespace SignedLedger

namespace TransactionLog

def Named (log : TransactionLog) : Prop :=
  ∀ e ∈ log, e.id ≠ .nil

variable {log done rest : TransactionLog} {a : ArtifactId} {e f : LogEntry}

theorem Valid.eq_of_id_eq (h : log.Valid) (he : e ∈ log) (hf : f ∈ log) (hid : e.id = f.id) :
    e = f :=
  List.inj_on_of_nodup_map h.nodup he hf hid

/-- Where the transactions of an artifact are cut, what they declare is cut with them, each part
shifted by one. -/
theorem Valid.previous_of_split (h : log.Valid) (ho : log.of a = done ++ e :: rest) :
    done.map LogEntry.previous ++ [e.previous] = .nil :: done.map LogEntry.id ∧
      rest.map LogEntry.previous ++ [log.latest a] = e.id :: rest.map LogEntry.id := by
  have hp := h.map_previous_of a
  rw [ho] at hp
  have hsplit : (done.map LogEntry.previous ++ [e.previous]) ++
      (rest.map LogEntry.previous ++ [log.latest a]) =
        (.nil :: done.map LogEntry.id) ++ (e.id :: rest.map LogEntry.id) := by
    simpa using hp
  exact List.append_inj hsplit (by simp)

theorem Valid.artifact_eq_of_previous (h : log.Valid) (hn : log.Named) (he : e ∈ log) (hf : f ∈ log)
    (hp : f.previous = e.id) : f.artifact = e.artifact := by
  have hm : f.previous ∈ (log.of f.artifact).map LogEntry.previous :=
    List.mem_map_of_mem (mem_of_iff.mpr ⟨hf, rfl⟩)
  have hcons : f.previous ∈ .nil :: (log.of f.artifact).map LogEntry.id := by
    rw [← h.map_previous_of f.artifact]
    exact List.mem_append_left _ hm
  rcases List.mem_cons.mp hcons with hnil | hid
  · exact absurd (hp.symm.trans hnil) (hn e he)
  · obtain ⟨g, hg, hgid⟩ := List.mem_map.mp hid
    obtain ⟨hgm, hga⟩ := mem_of_iff.mp hg
    rw [← hga, h.eq_of_id_eq hgm he (hgid.trans hp)]

/-- The transactions that declare `e` are the one after it among those of its artifact, if there is
one. -/
theorem Valid.previous_eq_iff (h : log.Valid) (hn : log.Named) (ho : log.of a = done ++ e :: rest)
    (hf : f ∈ log) : f.previous = e.id ↔ rest.head? = some f := by
  have hea : e ∈ log.of a := by simp [ho]
  obtain ⟨he, harti⟩ := mem_of_iff.mp hea
  obtain ⟨-, hrest⟩ := h.previous_of_split ho
  constructor
  · intro hp
    have hfa : f ∈ log.of a :=
      mem_of_iff.mpr ⟨hf, (h.artifact_eq_of_previous hn he hf hp).trans harti⟩
    cases rest with
    | nil =>
      -- `e` is the latest transaction, and an identifier is declared or the latest one only once.
      have hlatest : log.latest a = e.id := by simpa using hrest
      have hcount := h.count_previous a e.id
      have hid := h.count_id_le_one a e.id
      have hpos : 0 < ((log.of a).map LogEntry.previous).count e.id :=
        List.count_pos_iff.mpr (hp ▸ List.mem_map_of_mem hfa)
      rw [if_pos hlatest, if_neg (hn e he)] at hcount
      omega
    | cons g rest =>
      have hg : g.previous = e.id := by simpa using congrArg List.head? hrest
      have hga : g ∈ log.of a := by simp [ho]
      have hone : ∀ f ∈ log.of a, ∀ g ∈ log.of a, f.previous = e.id → g.previous = e.id → f = g :=
        h.eq_iff.mpr fun hnil => absurd hnil (hn e he)
      rw [List.head?_cons, hone f hfa g hga hp hg]
  · intro hhead
    obtain ⟨rest', rfl⟩ := List.head?_eq_some_iff.mp hhead
    simpa using congrArg List.head? hrest

theorem Valid.next_of_split (h : log.Valid) (hn : log.Named) (ho : log.of a = done ++ e :: rest) :
    log.next e.id = (rest.head?.map LogEntry.id).getD .nil := by
  have hea : e ∈ log.of a := by simp [ho]
  have hne : e.id ≠ .nil := hn e (mem_of_iff.mp hea).1
  rw [next, if_neg hne]
  cases hl : (log.filter fun f => f.previous = e.id).getLast? with
  | some f =>
    obtain ⟨hf, hp⟩ := List.mem_filter.mp (List.mem_of_getLast? hl)
    rw [(h.previous_eq_iff hn ho hf).mp (by simpa using hp)]
  | none =>
    have hnil := List.getLast?_eq_none_iff.mp hl
    cases hr : rest.head? with
    | none => rfl
    | some f =>
      have hfa : f ∈ log.of a := by simp [ho, List.mem_of_head? hr]
      have hf := (mem_of_iff.mp hfa).1
      have hp := (h.previous_eq_iff hn ho hf).mpr hr
      exact absurd hp (by simpa using List.filter_eq_nil_iff.mp hnil f hf)

theorem artifact?_eq_some_iff {r : Artifact} :
    log.artifact? a = some r ↔ ∃ first last, (log.of a).head? = some first ∧
      (log.of a).getLast? = some last ∧ r = ⟨a, first.block, first.id, last.block, last.id⟩ := by
  unfold artifact?
  cases ho : log.of a with
  | nil => simp
  | cons first rest => simp [List.getLast?_cons, eq_comm]

end TransactionLog

/-- That the record says what its certificate says. -/
structure RecordedTransaction.Reads (r : RecordedTransaction) (x : Transaction) : Prop where
  parsed : Transaction.parse r.certificate = .ok x
  id : x.id = r.id
  previous : x.previous = r.previous

namespace Tables

/-- The transactions that are visited from a transaction on, up to one that none extends. -/
inductive Follow (t : Tables) : TransactionId → List TransactionId → Prop
  | stop {id : TransactionId} (h : t.nextTransaction? id = .ok none) : Follow t id [id]
  | step {id next : TransactionId} {ids : List TransactionId}
    (h : t.nextTransaction? id = .ok (some next)) (hf : Follow t next ids) : Follow t id (id :: ids)

def InChain (t : Tables) (id : TransactionId) (a : ArtifactId) : Prop :=
  ∃ r ids, t.artifact? a = .ok (some r) ∧ t.Follow r.first ids ∧ id ∈ ids

/-- That the transactions `ids` are those of artifact `a`, whose record is `r`, as they are linked. -/
structure StoresChain (t : Tables) (a : ArtifactId) (r : Artifact) (ids : List TransactionId) :
    Prop where
  id : r.id = a
  follow : t.Follow r.first ids
  distinct : ids.Nodup
  members : ∀ i, i ∈ ids ↔ ∃ x, t.transaction? i = .ok (some x) ∧ x.Moves a
  last : ids.getLast? = some r.last
  firstBlock : t.transactionBlock? r.first = .ok (some r.firstBlock)
  lastBlock : t.transactionBlock? r.last = .ok (some r.lastBlock)
  previous : ∀ (n : Nat) (i : TransactionId), ids[n]? = some i →
    ∃ x, t.transaction? i = .ok (some x) ∧ (Identifier.nil :: ids)[n]? = some x.previous

/-- The artifacts have the chains that the log says, and each transaction is in exactly one. -/
structure KeepsChains (t : Tables) (log : TransactionLog) : Prop where
  chain : ∀ a r, t.artifact? a = .ok (some r) → t.StoresChain a r ((log.of a).map LogEntry.id)
  unique : ∀ id x, t.transaction? id = .ok (some x) → ∃ a, x.Moves a ∧ ∀ b, t.InChain id b ↔ b = a
  entries : ∀ key value, t.get? .transactions key = some value →
    ∃ r x, RecordedTransaction.decode value = .ok r ∧ key = r.id.bytes ∧ r.Reads x

variable {t : Tables} {log done rest : TransactionLog} {a : ArtifactId} {e : LogEntry}
variable {r : Artifact} {id : TransactionId} {ids more : List TransactionId}
variable {key value : Bytes}

theorem Follow.unique (h : t.Follow id ids) (h' : t.Follow id more) : ids = more := by
  induction h generalizing more with
  | stop hs =>
    cases h' with
    | stop => rfl
    | step hs' =>
      rw [hs] at hs'
      cases hs'
  | step hs _ ih =>
    cases h' with
    | stop hs' =>
      rw [hs] at hs'
      cases hs'
    | step hs' hf =>
      rw [hs] at hs'
      cases hs'
      rw [ih hf]

namespace Indexes

theorem transaction?_of_mem (h : t.Indexes log) (he : e ∈ log) :
    t.transaction? e.id = .ok (some (e.recorded (log.next e.id))) :=
  h.transaction?_eq_some_iff.mpr ⟨e, he, rfl, rfl⟩

theorem transactionBlock?_of_mem (h : t.Indexes log) (he : e ∈ log) :
    t.transactionBlock? e.id = .ok (some e.block) := by
  rw [transactionBlock?, h.transaction?_of_mem he]
  rfl

theorem nextTransaction?_of_mem (h : t.Indexes log) (he : e ∈ log) :
    t.nextTransaction? e.id = .ok (log.next e.id).nonNil? := by
  rw [nextTransaction?, h.transaction?_of_mem he]
  rfl

theorem get?_transactions_iff (h : t.Indexes log) :
    t.get? .transactions key = some value ↔
      ∃ e ∈ log, key = e.id.bytes ∧ value = (e.recorded (log.next e.id)).encode := by
  constructor
  · intro hv
    have hk : key.length = 16 := by
      by_contra hk
      simp [(h.keys key hk).1] at hv
    obtain ⟨id, rfl⟩ := Identifier.exists_bytes_eq .transaction hk
    rw [h.transactions, TransactionLog.transaction?, Option.map_map, Option.map_eq_some_iff] at hv
    obtain ⟨e, he, rfl⟩ := hv
    obtain ⟨hm, rfl⟩ := TransactionLog.found?_eq_some he
    exact ⟨e, hm, rfl, rfl⟩
  · rintro ⟨e, he, rfl, rfl⟩
    rw [h.transactions, TransactionLog.transaction?, h.valid.found?_of_mem he]
    rfl

theorem reads (hp : log.Parsed) (he : e ∈ log) (next : TransactionId) :
    (e.recorded next).Reads e.transaction.shown where
  parsed := Transaction.parse_certificate_shown (hp e he)
  id := rfl
  previous := rfl

theorem follow (h : t.Indexes log) (hn : log.Named) (ho : log.of a = done ++ e :: rest) :
    t.Follow e.id ((e :: rest).map LogEntry.id) := by
  induction rest generalizing done e with
  | nil =>
    have he : e ∈ log.of a := by simp [ho]
    have hnext := h.nextTransaction?_of_mem (TransactionLog.mem_of_iff.mp he).1
    rw [h.valid.next_of_split hn ho] at hnext
    exact .stop hnext
  | cons f rest ih =>
    have he : e ∈ log.of a := by simp [ho]
    have hf : f ∈ log.of a := by simp [ho]
    have hne : f.id ≠ .nil := hn f (TransactionLog.mem_of_iff.mp hf).1
    have hnext := h.nextTransaction?_of_mem (TransactionLog.mem_of_iff.mp he).1
    rw [h.valid.next_of_split hn ho] at hnext
    have hstep : t.nextTransaction? e.id = .ok (some f.id) := by
      simpa [Identifier.nonNil?, hne] using hnext
    have ho' : log.of a = (done ++ [e]) ++ f :: rest := by simp [ho]
    exact .step hstep (ih ho')

theorem previous_of_getElem? (h : t.Indexes log) {n : Nat}
    (hid : ((log.of a).map LogEntry.id)[n]? = some id) :
    ∃ x, t.transaction? id = .ok (some x) ∧
      (Identifier.nil :: (log.of a).map LogEntry.id)[n]? = some x.previous := by
  rw [List.getElem?_map, Option.map_eq_some_iff] at hid
  obtain ⟨e, he, rfl⟩ := hid
  refine ⟨_, h.transaction?_of_mem (TransactionLog.mem_of_iff.mp (List.mem_of_getElem? he)).1, ?_⟩
  obtain ⟨hlt, _⟩ := List.getElem?_eq_some_iff.mp he
  rw [← h.valid.map_previous_of a, List.getElem?_append_left (by simpa using hlt),
    List.getElem?_map, he]
  rfl

theorem storesChain (h : t.Indexes log) (hp : log.Parsed) (hn : log.Named)
    (hr : t.artifact? a = .ok (some r)) : t.StoresChain a r ((log.of a).map LogEntry.id) := by
  rw [h.artifact?, Except.ok.injEq, TransactionLog.artifact?_eq_some_iff] at hr
  obtain ⟨first, last, hfirst, hlast, rfl⟩ := hr
  have hfm := (TransactionLog.mem_of_iff.mp (List.mem_of_head? hfirst)).1
  have hlm := (TransactionLog.mem_of_iff.mp (List.mem_of_getLast? hlast)).1
  refine ⟨rfl, ?_, h.valid.nodup_of a, fun i => ⟨?_, ?_⟩, ?_, h.transactionBlock?_of_mem hfm,
    h.transactionBlock?_of_mem hlm, fun n i hi => h.previous_of_getElem? hi⟩
  · obtain ⟨rest, ho⟩ := List.head?_eq_some_iff.mp hfirst
    have ho' : log.of a = [] ++ first :: rest := ho
    rw [ho]
    exact h.follow hn ho'
  · intro hi
    obtain ⟨e, he, rfl⟩ := List.mem_map.mp hi
    have hm := (TransactionLog.mem_of_iff.mp he).1
    exact ⟨_, h.transaction?_of_mem hm, (hp.moves_iff hm a _).mpr he⟩
  · rintro ⟨x, hx, ha⟩
    obtain ⟨e, he, rfl, rfl⟩ := h.transaction?_eq_some_iff.mp hx
    exact List.mem_map_of_mem ((hp.moves_iff he a _).mp ha)
  · rw [List.getLast?_map, hlast]
    rfl

theorem inChain_iff (h : t.Indexes log) (hp : log.Parsed) (hn : log.Named) (he : e ∈ log) :
    t.InChain e.id a ↔ a = e.artifact := by
  constructor
  · rintro ⟨r, ids, hr, hf, hi⟩
    have hc := h.storesChain hp hn hr
    rw [hf.unique hc.follow] at hi
    obtain ⟨f, hfa, hid⟩ := List.mem_map.mp hi
    obtain ⟨hfm, rfl⟩ := TransactionLog.mem_of_iff.mp hfa
    rw [h.valid.eq_of_id_eq hfm he hid]
  · rintro rfl
    have hea : e ∈ log.of e.artifact := TransactionLog.mem_of_iff.mpr ⟨he, rfl⟩
    cases hr : log.artifact? e.artifact with
    | none => simp [TransactionLog.artifact?_eq_none_iff.mp hr] at hea
    | some r =>
      have hr' : t.artifact? e.artifact = .ok (some r) := by rw [h.artifact?, hr]
      exact ⟨r, _, hr', (h.storesChain hp hn hr').follow, List.mem_map_of_mem hea⟩

theorem keepsChains (h : t.Indexes log) (hp : log.Parsed) (hn : log.Named) : t.KeepsChains log where
  chain := fun a r hr => h.storesChain hp hn hr
  unique := by
    intro id x hx
    obtain ⟨e, he, rfl, rfl⟩ := h.transaction?_eq_some_iff.mp hx
    exact ⟨e.artifact, (hp.moves_iff he e.artifact _).mpr (TransactionLog.mem_of_iff.mpr ⟨he, rfl⟩),
      fun b => h.inChain_iff hp hn he⟩
  entries := by
    intro key value hv
    obtain ⟨e, he, rfl, rfl⟩ := h.get?_transactions_iff.mp hv
    exact ⟨_, _, e.decode_encode_recorded _ (h.small e he), rfl, reads hp he _⟩

end Indexes

end Tables

/-- No certificate of the call carries the zero identifier. -/
def StoreCall.Named : StoreCall → Prop
  | .append _ _ pending => ∀ c ∈ pending, ∀ x, Transaction.parse c = .ok x → x.id ≠ .nil
  | .ensureRoot _ => True

namespace Sample

def following (id previous : TransactionId) : Transaction :=
  { starting id with
    certificate := .ofBytes (FieldList.written .short
      [CertificateType.field ⟨0x0100⟩, Tag.transactionId.identifier id,
        Tag.artifactId.identifier artifact, Tag.previousTransactionId.identifier previous])
    previous }

def moving : List StoreCall :=
  [appending ⟨.ofNat 16 3⟩ [starting ⟨.ofNat 16 4⟩, following ⟨.ofNat 16 5⟩ ⟨.ofNat 16 4⟩],
    .ensureRoot 0,
    appending ⟨.ofNat 16 6⟩ [following ⟨.ofNat 16 7⟩ ⟨.ofNat 16 5⟩]]

theorem named_appending {block : BlockId} {xs : List Transaction}
    (hx : ∀ x ∈ xs, Transaction.parse x.certificate = .ok x ∧ x.id ≠ .nil) :
    (appending block xs).Named := by
  intro c hc y hy
  obtain ⟨x, hm, rfl⟩ := List.mem_map.mp hc
  obtain ⟨hparse, hid⟩ := hx x hm
  rw [hparse] at hy
  cases hy
  exact hid

theorem named_moving : ∀ c ∈ moving, c.Named := by
  intro c hc
  simp only [moving, List.mem_cons, List.not_mem_nil, or_false] at hc
  rcases hc with rfl | rfl | rfl
  · exact named_appending (by decide +kernel)
  · trivial
  · exact named_appending (by decide +kernel)

end Sample

namespace Store

/-- After every run in which nothing is appended under the zero identifier, every artifact has its
chain: the transactions of the journal that name it, linked in their order. -/
theorem run_keepsChains (signer : BlockSigner) (calls : List StoreCall)
    (hn : ∀ c ∈ calls, c.Named) :
    ((start signer).run calls).tables.KeepsChains ((start signer).journal calls) := by
  refine (run_start_indexes signer calls).keepsChains (journal_parsed _ _) ?_
  intro e he
  obtain ⟨fresh, now, pending, d, hc, hd, hx⟩ := exists_of_mem_journal he
  exact hn _ hc d hd _ hx

theorem keepsChains_moving : (∀ c ∈ Sample.moving, c.Named) ∧
    ((start Sample.signer).run Sample.moving).tables.KeepsChains
      ((start Sample.signer).journal Sample.moving) ∧
    ((start Sample.signer).run Sample.moving).tables.Follow ⟨.ofNat 16 4⟩
      [⟨.ofNat 16 4⟩, ⟨.ofNat 16 5⟩, ⟨.ofNat 16 7⟩] := by
  have hkeeps := run_keepsChains Sample.signer Sample.moving Sample.named_moving
  refine ⟨Sample.named_moving, hkeeps, ?_⟩
  have hrecord : ((start Sample.signer).run Sample.moving).tables.artifact? Sample.artifact =
      .ok (some ⟨Sample.artifact, ⟨.ofNat 16 3⟩, ⟨.ofNat 16 4⟩, ⟨.ofNat 16 6⟩, ⟨.ofNat 16 7⟩⟩) := by
    decide +kernel
  have hids : (((start Sample.signer).journal Sample.moving).of Sample.artifact).map LogEntry.id =
      [⟨.ofNat 16 4⟩, ⟨.ofNat 16 5⟩, ⟨.ofNat 16 7⟩] := by
    decide +kernel
  rw [← hids]
  exact (hkeeps.chain _ _ hrecord).follow

end Store

end SignedLedger
