import Mathlib.Data.List.Chain
import Mathlib.Data.List.Nodup
import SignedLedger.Proofs.StoreRun

/-! The blocks of a store in the order of their heights, each with the transactions that it wraps.
Every block is signed over the certificate of the one before it, and a block that is appended
changes nothing about the earlier ones but where the last of them points to. -/

namespace SignedLedger

structure HistoryEntry where
  block : Block
  transactions : List Transaction

abbrev BlockHistory := List HistoryEntry

namespace HistoryEntry

def id (e : HistoryEntry) : BlockId :=
  e.block.id

def wrapped (e : HistoryEntry) : List Certificate :=
  e.transactions.map Transaction.certificate

def log (e : HistoryEntry) : TransactionLog :=
  e.transactions.map (LogEntry.mk e.id)

/-- The entry once a block with the identifier `next` follows it. -/
def before (e : HistoryEntry) (next : BlockId) : HistoryEntry :=
  { e with block := { e.block with next } }

@[simp] theorem id_mk (b : Block) (xs : List Transaction) : (HistoryEntry.mk b xs).id = b.id := rfl

@[simp] theorem id_before (e : HistoryEntry) (next : BlockId) : (e.before next).id = e.id := rfl

@[simp] theorem log_before (e : HistoryEntry) (next : BlockId) : (e.before next).log = e.log := rfl

structure IsRoot (s : BlockSigner) (e : HistoryEntry) : Prop where
  id : e.id = .root
  previous : e.block.previous = .nil
  height : e.block.height = 0
  transactions : e.transactions = []
  certifies : s.Certifies .root [] e.block.certificate

/-- That the block of `f` is the next one after that of `e`. -/
structure Precedes (s : BlockSigner) (e f : HistoryEntry) : Prop where
  next : e.block.next = f.id
  previous : f.block.previous = e.id
  height : f.block.height.toNat = e.block.height.toNat + 1
  certifies : s.Certifies (e.block.nextHeader s.suite f.id) f.wrapped f.block.certificate

variable {s : BlockSigner} {e f : HistoryEntry}

theorem Precedes.height_eq (h : Precedes s e f) : f.block.height = e.block.height + 1 := by
  rw [← UInt64.toNat_inj, h.height, UInt64.toNat_add]
  have := h.height ▸ f.block.height.toNat_lt
  exact (Nat.mod_eq_of_lt this).symm

end HistoryEntry

namespace BlockHistory

open HistoryEntry

def log (h : BlockHistory) : TransactionLog :=
  h.flatMap HistoryEntry.log

def block? (h : BlockHistory) (id : BlockId) : Option Block :=
  (h.find? fun e => e.id = id).map HistoryEntry.block

structure Valid (s : BlockSigner) (h : BlockHistory) : Prop where
  root : ∀ e ∈ h.head?, e.IsRoot s
  chain : h.IsChain (Precedes s)
  last : ∀ e ∈ h.getLast?, e.block.next = .nil
  nodup : (h.map HistoryEntry.id).Nodup
  ne_nil : ∀ e ∈ h, e.id ≠ .nil
  small : ∀ e ∈ h, e.block.certificate.visible < 2 ^ 64
  parsed : ∀ e ∈ h, ∀ x ∈ e.transactions, Transaction.parse x.certificate = .ok x

variable {s : BlockSigner} {h init : BlockHistory} {e f last : HistoryEntry} {n : Nat}

theorem valid_nil : Valid s [] :=
  ⟨by simp, .nil, by simp, by simp, by simp, by simp, by simp⟩

theorem valid_root {c : Certificate} (hc : s.Certifies .root [] c) :
    Valid s [⟨BlockHeader.root.block c, []⟩] where
  root := by
    intro e he
    obtain rfl : _ = e := by simpa using he
    exact ⟨rfl, rfl, rfl, rfl, hc⟩
  chain := .singleton _
  last := by simp [BlockHeader.block]
  nodup := List.nodup_singleton _
  ne_nil := by
    intro e he
    obtain rfl : e = _ := List.mem_singleton.mp he
    exact (by decide : (Identifier.root : BlockId) ≠ .nil)
  small := by
    have hv := hc.visible_eq
    have hs := hc.signatureSize_le
    simp only [BlockSigner.expectedSize, List.map_nil, List.sum_nil] at hv
    simp only [HeaderWidth.maxValue, HeaderWidth.lengthBytes, HeaderWidth.size, encodedSize]
      at hv hs
    simp only [List.mem_singleton, forall_eq, BlockHeader.block]
    omega
  parsed := by simp

namespace Valid

theorem precedes (hv : Valid s h) (he : h[n]? = some e) (hf : h[n + 1]? = some f) :
    Precedes s e f := by
  obtain ⟨hn, rfl⟩ := List.getElem?_eq_some_iff.mp he
  obtain ⟨hn', rfl⟩ := List.getElem?_eq_some_iff.mp hf
  exact List.isChain_iff_getElem.mp hv.chain n hn'

theorem isRoot (hv : Valid s h) (he : h[0]? = some e) : e.IsRoot s :=
  hv.root e (by rwa [Option.mem_def, List.head?_eq_getElem?])

theorem height (hv : Valid s h) (he : h[n]? = some e) : e.block.height.toNat = n := by
  induction n generalizing e with
  | zero => simp [(hv.isRoot he).height]
  | succ n ih =>
    obtain ⟨hn, _⟩ := List.getElem?_eq_some_iff.mp he
    have hp : h[n]? = some h[n] := List.getElem?_eq_getElem (by omega)
    rw [(hv.precedes hp he).height, ih hp]

theorem toNat_ofNat (hv : Valid s h) (hn : n < h.length) : (UInt64.ofNat n).toNat = n := by
  have hh := hv.height (List.getElem?_eq_getElem hn)
  exact UInt64.toNat_ofNat_of_lt' (hh ▸ h[n].block.height.toNat_lt)

/-- Every block is certified under its own header. -/
theorem exists_header (hv : Valid s h) (he : e ∈ h) :
    ∃ header : BlockHeader, header.id = e.id ∧ header.previous = e.block.previous ∧
      header.height = e.block.height ∧ s.Certifies header e.wrapped e.block.certificate := by
  obtain ⟨n, hn⟩ := List.mem_iff_getElem?.mp he
  cases n with
  | zero =>
    have hr := hv.isRoot hn
    refine ⟨.root, hr.id.symm, hr.previous.symm, hr.height.symm, ?_⟩
    rw [wrapped, hr.transactions]
    exact hr.certifies
  | succ n =>
    obtain ⟨hlt, _⟩ := List.getElem?_eq_some_iff.mp hn
    have hp := hv.precedes (List.getElem?_eq_getElem (show n < h.length by omega)) hn
    exact ⟨_, rfl, hp.previous.symm, hp.height_eq.symm, hp.certifies⟩

theorem shown_block (hv : Valid s h) (he : e ∈ h) : e.block.shown = e.block := by
  obtain ⟨_, _, _, _, hc⟩ := hv.exists_header he
  rw [Block.shown, hc.shown_eq]

theorem decode_encode (hv : Valid s h) (he : e ∈ h) :
    Block.decode e.block.encode = .ok e.block := by
  rw [Block.decode_encode (hv.small e he), hv.shown_block he]

theorem block?_of_mem (hv : Valid s h) (he : e ∈ h) : h.block? e.id = some e.block := by
  cases hf : h.find? fun f => f.id = e.id with
  | none => exact absurd (List.find?_eq_none.mp hf e he) (by simp)
  | some f =>
    have hid : f.id = e.id := by simpa using List.find?_some hf
    rw [block?, hf, List.inj_on_of_nodup_map hv.nodup (List.mem_of_find?_eq_some hf) he hid]
    rfl

end Valid

theorem block?_eq_none_iff {id : BlockId} : h.block? id = none ↔ id ∉ h.map HistoryEntry.id := by
  simp [block?]

theorem exists_of_block? {id : BlockId} {b : Block} (hb : h.block? id = some b) :
    ∃ e ∈ h, e.id = id ∧ e.block = b := by
  obtain ⟨e, he, rfl⟩ := Option.map_eq_some_iff.mp hb
  exact ⟨e, List.mem_of_find?_eq_some he, by simpa using List.find?_some he, rfl⟩

theorem map_id_append (init : BlockHistory) (last f : HistoryEntry) (next : BlockId) :
    (init ++ [last.before next, f]).map HistoryEntry.id =
      (init ++ [last]).map HistoryEntry.id ++ [f.id] := by
  simp

theorem log_append (init : BlockHistory) (last f : HistoryEntry) (next : BlockId) :
    log (init ++ [last.before next, f]) = log (init ++ [last]) ++ f.log := by
  simp [log]

theorem Valid.append (hv : Valid s (init ++ [last])) {b : Block} {xs : List Transaction}
    (hc : s.Certifies (last.block.nextHeader s.suite b.id) (xs.map Transaction.certificate)
      b.certificate)
    (hp : b.previous = last.id) (hn : b.next = .nil)
    (hh : b.height.toNat = last.block.height.toNat + 1)
    (hfresh : b.id ∉ (init ++ [last]).map HistoryEntry.id) (hnil : b.id ≠ .nil)
    (hs : b.certificate.visible < 2 ^ 64)
    (hx : ∀ x ∈ xs, Transaction.parse x.certificate = .ok x) :
    Valid s (init ++ [last.before b.id, ⟨b, xs⟩]) where
  root := by
    intro e he
    cases init with
    | nil =>
      obtain rfl : last.before b.id = e := by simpa using he
      have hr := hv.isRoot (show ([] ++ [last])[0]? = some last from rfl)
      exact ⟨hr.id, hr.previous, hr.height, hr.transactions, hr.certifies⟩
    | cons f init => exact hv.root e (by simpa using he)
  chain := by
    obtain ⟨hi, _, hl⟩ := List.isChain_append.mp hv.chain
    refine List.isChain_append.mpr ⟨hi, List.isChain_pair.mpr ⟨rfl, hp, hh, hc⟩, ?_⟩
    intro e he f hf
    obtain rfl : last.before b.id = f := by simpa using hf
    have hp := hl e he last (by simp)
    exact ⟨hp.next, hp.previous, hp.height, hp.certifies⟩
  last := by
    intro e he
    obtain rfl : ⟨b, xs⟩ = e := by simpa using he
    exact hn
  nodup := by
    rw [map_id_append]
    refine List.nodup_append.mpr ⟨hv.nodup, by simp, ?_⟩
    intro id hid _ hb he
    obtain rfl : id = b.id := he.trans (List.mem_singleton.mp hb)
    exact hfresh hid
  ne_nil := by
    obtain ⟨hi, hl⟩ := List.forall_mem_append.mp hv.ne_nil
    exact List.forall_mem_append.mpr ⟨hi, by simpa using ⟨hl last (by simp), hnil⟩⟩
  small := by
    obtain ⟨hi, hl⟩ := List.forall_mem_append.mp hv.small
    exact List.forall_mem_append.mpr ⟨hi, by simpa using ⟨hl last (by simp), hs⟩⟩
  parsed := by
    obtain ⟨hi, hl⟩ := List.forall_mem_append.mp hv.parsed
    exact List.forall_mem_append.mpr ⟨hi, by simpa using ⟨hl last (by simp), hx⟩⟩

/-- Only the record of the last block changes, to point to the new one. -/
theorem block?_append (hn : ((init ++ [last]).map HistoryEntry.id).Nodup)
    (hf : f.id ∉ (init ++ [last]).map HistoryEntry.id) (next id : BlockId) :
    block? (init ++ [last.before next, f]) id =
      if id = last.id then some (last.before next).block
      else if id = f.id then some f.block
      else block? (init ++ [last]) id := by
  have hne : last.id ≠ f.id := fun he => hf (he ▸ List.mem_map_of_mem (by simp))
  by_cases hl : id = last.id
  · subst hl
    have hi : init.find? (fun e => e.id = last.id) = none := by
      rw [List.map_append, List.nodup_append] at hn
      simp only [List.find?_eq_none, decide_eq_true_eq]
      exact fun e he => hn.2.2 e.id (List.mem_map_of_mem he) last.id (by simp)
    simp [block?, hi]
  · by_cases hid : id = f.id
    · subst hid
      have hi : init.find? (fun e => e.id = f.id) = none := by
        simp only [List.find?_eq_none, decide_eq_true_eq]
        exact fun e he hid => hf (hid ▸ List.mem_map_of_mem (List.mem_append_left _ he))
      simp [block?, hi, hne, hl]
    · simp [block?, hl, hid, Ne.symm hl, Ne.symm hid]

end BlockHistory

end SignedLedger
