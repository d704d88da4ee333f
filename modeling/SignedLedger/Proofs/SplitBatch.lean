import SignedLedger.Proofs.ArtifactChain
import SignedLedger.Proofs.BlockRenaming

/-! Batches in two blocks. Whether a batch is appended as one block or its two parts as two blocks,
the same transactions are recorded, and the same certificate is the first to be refused. A chain of
transactions may go from the first part on into the second one. -/

namespace SignedLedger

namespace TransactionLog

theorem recordAll_append_batch (log : TransactionLog) (block : BlockId)
    (front back : List Certificate) :
    log.recordAll block (front ++ back) = (do
      let more ← log.recordAll block front
      more.recordAll block back) :=
  List.foldlM_append

/-- The parts of a batch, in blocks of their own, are recorded as the whole batch in one block. -/
theorem recordAll_split (log : TransactionLog) (whole first second : BlockId)
    (front back : List Certificate) :
    Concur (Renamed (BlockId.Renamed [whole] [first, second]))
      (log.recordAll whole (front ++ back))
      (do
        let more ← log.recordAll first front
        more.recordAll second back) := by
  have hfirst : BlockId.Renamed [whole] [first, second] whole first := .inr ⟨by simp, by simp⟩
  have hsecond : BlockId.Renamed [whole] [first, second] whole second := .inr ⟨by simp, by simp⟩
  have hlog := renamed_refl (R := BlockId.Renamed [whole] [first, second]) (fun _ => .inl rfl) log
  rw [recordAll_append_batch]
  exact (hlog.recordAll hfirst front).bind fun _ _ _ hmore => hmore.recordAll hsecond back

end TransactionLog

namespace Tables

/-- That the certificate in place `n` is the first one that cannot follow those before it, and is
refused with `e`. -/
def RefusesAt (t : Tables) (pending : List Certificate) (n : Nat) (e : StoreError) : Prop :=
  ∃ c done, pending[n]? = some c ∧ t.Accepts (pending.take n) done ∧ t.Offends done c e

variable {t : Tables} {front back pending : List Certificate} {e : StoreError} {n : Nat}

theorem refuses_iff_exists_refusesAt : t.Refuses pending e ↔ ∃ n, t.RefusesAt pending n e := by
  constructor
  · rintro ⟨before, c, after, done, rfl, ha, ho⟩
    exact ⟨before.length, c, done, by simp, by simpa using ha, ho⟩
  · rintro ⟨n, c, done, hc, ha, ho⟩
    refine ⟨pending.take n, c, pending.drop (n + 1), done, ?_, ha, ho⟩
    obtain ⟨hn, rfl⟩ := List.getElem?_eq_some_iff.mp hc
    rw [← List.drop_eq_getElem_cons hn, List.take_append_drop]

theorem RefusesAt.of_lt (h : t.RefusesAt (front ++ back) n e) (hn : n < front.length) :
    t.RefusesAt front n e := by
  obtain ⟨c, done, hc, ha, ho⟩ := h
  rw [List.getElem?_append_left hn] at hc
  rw [List.take_append_of_le_length (Nat.le_of_lt hn)] at ha
  exact ⟨c, done, hc, ha, ho⟩

theorem Accepts.of_append {done : List Transaction} (h : t.Accepts (front ++ back) done) :
    t.Accepts front (done.take front.length) where
  reads := by
    have hread := congrArg (List.take front.length) h.reads
    rwa [← List.map_take, ← List.map_take, List.take_left] at hread
  follows := by
    intro n x hx
    by_cases hn : n < front.length
    · rw [List.getElem?_take_of_lt hn] at hx
      rw [List.take_take, Nat.min_eq_left (Nat.le_of_lt hn)]
      exact h.follows n x hx
    · rw [List.getElem?_take, if_neg hn] at hx
      cases hx

theorem RefusesAt.accepts_front (h : t.RefusesAt (front ++ back) n e) (hn : front.length ≤ n) :
    ∃ done, t.Accepts front done := by
  obtain ⟨c, done, _, ha, _⟩ := h
  have htake : (front ++ back).take n = front ++ back.take (n - front.length) := by
    rw [List.take_append, List.take_of_length_le hn]
  rw [htake] at ha
  exact ⟨_, ha.of_append⟩

end Tables

namespace Sample

def crossing : List StoreCall :=
  [appending ⟨.ofNat 16 3⟩ [starting ⟨.ofNat 16 4⟩]]

def front : List Certificate :=
  [(following ⟨.ofNat 16 5⟩ ⟨.ofNat 16 4⟩).certificate]

def back : List Certificate :=
  [(following ⟨.ofNat 16 6⟩ ⟨.ofNat 16 5⟩).certificate]

end Sample

namespace Store

/-- How an append of a batch, which ends as `whole`, compares with the append of its front, which
ends as `first`, and after it of its back, which ends as `second`. -/
structure Splits (t : Tables) (front back : List Certificate) (R : BlockId → BlockId → Prop)
    (whole first second : Except StoreError Block × Store) : Prop where
  success : (∃ b, whole.1 = .ok b) ↔ (∃ b, first.1 = .ok b) ∧ ∃ b, second.1 = .ok b
  tables : (∃ b, whole.1 = .ok b) → whole.2.tables.Renamed R second.2.tables
  failure : ∀ e, whole.1 = .error e → ∃ n, t.RefusesAt (front ++ back) n e ∧
    (n < front.length → first.1 = .error e) ∧
    (front.length ≤ n → (∃ b, first.1 = .ok b) ∧ second.1 = .error e)

variable {s : Store} {log : TransactionLog} {whole first second : BlockId}
variable {now now₁ now₂ : UInt64} {front back : List Certificate}

theorem splits (h : s.tables.Indexes log)
    (hwhole : s.signer.Seals s.tables whole now (front ++ back))
    (hfirst : s.signer.Seals s.tables first now₁ front)
    (hsecond : ∀ b, (s.append first now₁ front).1 = .ok b →
      s.signer.Seals (s.append first now₁ front).2.tables second now₂ back) :
    Splits s.tables front back (BlockId.Renamed [whole] [first, second])
      (s.append whole now (front ++ back)) (s.append first now₁ front)
      ((s.append first now₁ front).2.append second now₂ back) := by
  have hw := append_concur h hwhole
  have hf := append_concur h hfirst
  have hsplit := log.recordAll_split whole first second front back
  have hsigner : (s.append first now₁ front).2.signer = s.signer := write_signer _
  have hboth := hf.bind fun b more hb hmore =>
    append_concur hmore (by rw [hsigner]; exact hsecond b hb)
  refine ⟨?_, ?_, ?_⟩
  · rw [hw.exists_ok_iff, hsplit.exists_ok_iff, ← hboth.exists_ok_iff]
    constructor
    · rintro ⟨b', hb'⟩
      obtain ⟨b, hb, hb'⟩ := bind_eq_ok_iff.mp hb'
      exact ⟨⟨b, hb⟩, b', hb'⟩
    · rintro ⟨⟨b, hb⟩, b', hb'⟩
      exact ⟨b', bind_eq_ok_iff.mpr ⟨b, hb, hb'⟩⟩
  · rintro ⟨b, hb⟩
    obtain ⟨more, hmore, hi⟩ := hw.exists_right hb
    obtain ⟨more', hmore', hrenamed⟩ := hsplit.exists_right hmore
    obtain ⟨b', _, hi'⟩ := hboth.exists_left hmore'
    exact hi.renamed hi' hrenamed
  · intro e he
    obtain ⟨n, hn⟩ := Tables.refuses_iff_exists_refusesAt.mp
      ((append_eq_error_iff_refuses h hwhole).mp he)
    refine ⟨n, hn, fun hlt => ?_, fun hle => ?_⟩
    · exact (append_eq_error_iff_refuses h hfirst).mpr
        (Tables.refuses_iff_exists_refusesAt.mpr ⟨n, hn.of_lt hlt⟩)
    · obtain ⟨b, hb⟩ := (exists_append_eq_ok_iff_accepts h hfirst).mpr (hn.accepts_front hle)
      have herror := hboth.eq_error_iff.mpr (hsplit.eq_error_iff.mp (hw.eq_error_iff.mp he))
      rw [hb, ok_bind] at herror
      exact ⟨⟨b, hb⟩, herror⟩

/-- After every run, a batch may be split. -/
theorem run_splits (signer : BlockSigner) (earlier : List StoreCall) (whole first second : BlockId)
    (now now₁ now₂ : UInt64) (front back : List Certificate)
    (hwhole : signer.Seals ((start signer).run earlier).tables whole now (front ++ back))
    (hfirst : signer.Seals ((start signer).run earlier).tables first now₁ front)
    (hsecond : ∀ b, (((start signer).run earlier).append first now₁ front).1 = .ok b →
      signer.Seals (((start signer).run earlier).append first now₁ front).2.tables second now₂
        back) :
    Splits ((start signer).run earlier).tables front back (BlockId.Renamed [whole] [first, second])
      (((start signer).run earlier).append whole now (front ++ back))
      (((start signer).run earlier).append first now₁ front)
      ((((start signer).run earlier).append first now₁ front).2.append second now₂ back) := by
  have hsigner : ((start signer).run earlier).signer = signer := run_signer ..
  apply splits (run_start_indexes signer earlier)
  · rwa [hsigner]
  · rwa [hsigner]
  · rwa [hsigner]

/-- The second part of the batch extends the first one, which extends what is there. -/
theorem splits_crossing :
    (∃ b, (((start Sample.signer).run Sample.crossing).append ⟨.ofNat 16 7⟩ 0
      (Sample.front ++ Sample.back)).1 = .ok b) ∧
    Splits ((start Sample.signer).run Sample.crossing).tables Sample.front Sample.back
      (BlockId.Renamed [⟨.ofNat 16 7⟩] [⟨.ofNat 16 8⟩, ⟨.ofNat 16 9⟩])
      (((start Sample.signer).run Sample.crossing).append ⟨.ofNat 16 7⟩ 0
        (Sample.front ++ Sample.back))
      (((start Sample.signer).run Sample.crossing).append ⟨.ofNat 16 8⟩ 0 Sample.front)
      ((((start Sample.signer).run Sample.crossing).append ⟨.ofNat 16 8⟩ 0 Sample.front).2.append
        ⟨.ofNat 16 9⟩ 0 Sample.back) := by
  have hhead : ((start Sample.signer).run Sample.crossing).tables.ReadsHead :=
    isOk_iff.mp (by decide +kernel)
  have hnext : (((start Sample.signer).run Sample.crossing).append ⟨.ofNat 16 8⟩ 0
      Sample.front).2.tables.ReadsHead := isOk_iff.mp (by decide +kernel)
  have hfits : Sample.signer.Fits (Sample.front ++ Sample.back) := ⟨by decide, by decide +kernel⟩
  refine ⟨isOk_iff.mp (by decide +kernel), run_splits _ _ _ _ _ _ _ _ _ _ ?_ ?_ ?_⟩
  · exact Sample.signs_signer.seals hfits hhead _ _
  · exact Sample.signs_signer.seals (hfits.mono (List.subset_append_left _ _)) hhead _ _
  · intro b _
    exact Sample.signs_signer.seals (hfits.mono (List.subset_append_right _ _)) hnext _ _

end Store

end SignedLedger
