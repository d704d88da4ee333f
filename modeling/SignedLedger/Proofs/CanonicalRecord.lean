import SignedLedger.Proofs.RecordCursor

/-! Canonical records. Bytes that decode are the ones that the record is written in, so no two byte
strings are read as the same record, and which byte strings these are is said by their size alone and,
where a certificate follows, by the size that is recorded of it. -/

namespace SignedLedger

open Field.Machine (Fault)

/-- How one kind of records is written and read. A record that `Fits` is read back as it is `shown`; what
is not `WellFormed` is corrupt, for the reason `fault`. The machine faults on no bytes. -/
structure CanonicalCodec {α : Type} (kind : RecordKind) (encode : α → Bytes)
    (decode : Bytes → Except StoreError α) (read : Bytes → Except Fault (Except StoreError α))
    (shown : α → α) (Fits : α → Prop) (WellFormed : Bytes → Prop) (fault : Bytes → RecordFault) :
    Prop where
  decode_encode : ∀ r, decode (encode r) = .ok (shown r) ↔ Fits r
  encode_decode : ∀ b r, decode b = .ok r → encode r = b
  accepts : ∀ b, (∃ r, decode b = .ok r) ↔ WellFormed b
  refuses : ∀ b, ¬ WellFormed b → decode b = .error (.corruptRecord kind (fault b))
  in_bounds : ∀ b, b.length < 2 ^ 64 → read b = .ok (decode b)

/-- The size of a certificate as the last bytes of a header have it. -/
def recordedSize (header : Nat) (b : Bytes) : Nat :=
  ofBigEndian ((b.drop (header - 8)).take 8)

/-- That as many bytes follow the header as it says. -/
def Sized (header : Nat) (b : Bytes) : Prop :=
  header ≤ b.length ∧ recordedSize header b = b.length - header

def sizeFault (header : Nat) (b : Bytes) : RecordFault :=
  if b.length < header then .tooShort b.length header
  else .sizeDisagrees (recordedSize header b) (b.length - header)

variable {α : Type} {kind : RecordKind} {header : Nat} {b : Bytes}

theorem certificateAt_eq_ite (hheader : 8 ≤ header) :
    certificateAt kind b (header - 8) =
      if b.length - header = recordedSize header b then .ok (.ofBytes (b.drop header))
      else .error (.corruptRecord kind (.sizeDisagrees (recordedSize header b) (b.length - header))) := by
  have hend : header - 8 + 8 = header := by omega
  rw [certificateAt, hend, List.length_drop]
  rfl

theorem sizedCertificate_ofBytes (hheader : 8 ≤ header) (h : Sized header b) :
    sizedCertificate (.ofBytes (b.drop header)) = b.drop (header - 8) := by
  obtain ⟨hle, hsize⟩ := h
  have hlength : ((b.drop (header - 8)).take 8).length = 8 := by
    rw [List.length_take, List.length_drop]
    omega
  have hwritten := bigEndian_ofBigEndian ((b.drop (header - 8)).take 8)
  have hvisible : (Certificate.ofBytes (b.drop header)).visible =
      ofBigEndian ((b.drop (header - 8)).take 8) := List.length_drop.trans hsize.symm
  have hrest : b.drop header = (b.drop (header - 8)).drop 8 := by
    rw [List.drop_drop]
    congr 1
    omega
  rw [hlength] at hwritten
  rw [sizedCertificate, hvisible, hwritten, Certificate.visibleBytes_ofBytes, hrest,
    List.take_append_drop]

/-- A record of a header and a certificate that the header has the size of. -/
structure SizedRecord (kind : RecordKind) (header : Nat) (encode : α → Bytes)
    (decode : Bytes → Except StoreError α) (certificate : α → Certificate) : Prop where
  le_header : 8 ≤ header
  length_encode : ∀ r, (encode r).length = header + (certificate r).visible
  short : ∀ b, b.length < header → decode b = .error (.corruptRecord kind (.tooShort b.length header))
  decoded : ∀ b, header ≤ b.length → ∃ record : Certificate → α,
    decode b = (certificateAt kind b (header - 8)).map record ∧
      ∀ c, encode (record c) = b.take (header - 8) ++ sizedCertificate c

namespace SizedRecord

variable {encode : α → Bytes} {decode : Bytes → Except StoreError α} {certificate : α → Certificate}

theorem refuses (h : SizedRecord kind header encode decode certificate) (hb : ¬ Sized header b) :
    decode b = .error (.corruptRecord kind (sizeFault header b)) := by
  by_cases hlt : b.length < header
  · rw [h.short b hlt, sizeFault, if_pos hlt]
  · obtain ⟨record, hdecode, _⟩ := h.decoded b (Nat.not_lt.mp hlt)
    have hsize : b.length - header ≠ recordedSize header b := fun heq =>
      hb ⟨Nat.not_lt.mp hlt, heq.symm⟩
    rw [hdecode, certificateAt_eq_ite h.le_header, if_neg hsize, sizeFault, if_neg hlt]
    rfl

theorem accepts (h : SizedRecord kind header encode decode certificate) (hb : Sized header b) :
    ∃ r, decode b = .ok r ∧ encode r = b := by
  obtain ⟨record, hdecode, hencode⟩ := h.decoded b hb.1
  refine ⟨record (.ofBytes (b.drop header)), ?_, ?_⟩
  · rw [hdecode, certificateAt_eq_ite h.le_header, if_pos hb.2.symm]
    rfl
  · rw [hencode, sizedCertificate_ofBytes h.le_header hb, List.take_append_drop]

theorem sized_of_ok (h : SizedRecord kind header encode decode certificate) {r : α}
    (hr : decode b = .ok r) : Sized header b := by
  by_cases hb : Sized header b
  · exact hb
  · rw [h.refuses hb] at hr
    cases hr

theorem canonical (h : SizedRecord kind header encode decode certificate) {shown : α → α}
    {read : Bytes → Except Fault (Except StoreError α)}
    (hshown : ∀ r, (certificate r).visible < 2 ^ 64 → decode (encode r) = .ok (shown r))
    (hread : ∀ b, b.length < 2 ^ 64 → read b = .ok (decode b)) :
    CanonicalCodec kind encode decode read shown (fun r => (certificate r).visible < 2 ^ 64)
      (Sized header) (sizeFault header) where
  decode_encode := by
    intro r
    constructor
    · intro hr
      have hsize := (h.sized_of_ok hr).2
      rw [h.length_encode, Nat.add_sub_cancel_left] at hsize
      rw [← hsize]
      exact Cursor.ofBigEndian_take_lt _
    · exact hshown r
  encode_decode := by
    intro b r hr
    obtain ⟨r', hr', hb⟩ := h.accepts (h.sized_of_ok hr)
    rw [hr] at hr'
    cases hr'
    exact hb
  accepts := by
    intro b
    constructor
    · rintro ⟨r, hr⟩
      exact h.sized_of_ok hr
    · intro hb
      obtain ⟨r, hr, _⟩ := h.accepts hb
      exact ⟨r, hr⟩
  refuses := fun b hb => h.refuses hb
  in_bounds := hread

end SizedRecord

theorem bigEndian_ofNat_ofBigEndian (h : b.length = 8) :
    bigEndian 8 (UInt64.ofNat (ofBigEndian b)).toNat = b := by
  have hlt := ofBigEndian_lt b
  have hwritten := bigEndian_ofBigEndian b
  rw [h] at hlt hwritten
  rw [UInt64.toNat_ofNat_of_lt' hlt, hwritten]

theorem Block.sizedRecord : SizedRecord .block headerSize encode decode certificate where
  le_header := by decide
  length_encode := length_encode
  short := by
    intro b h
    rw [decode, dif_pos h]
  decoded := by
    intro b h
    have hb : 64 ≤ b.length := h
    refine ⟨fun c => ⟨identifierAt b 0 (by omega), identifierAt b 16 (by omega),
      identifierAt b 32 (by omega), UInt64.ofNat (ofBigEndian ((b.drop 48).take 8)), c⟩, ?_, ?_⟩
    · rw [decode, dif_neg (Nat.not_lt.mpr h)]
      rfl
    · intro c
      have hheight : ((b.drop 48).take 8).length = 8 := by
        rw [List.length_take, List.length_drop]
        omega
      have htake : b.take (16 + 16 + 16 + 8) = b.take 16 ++ (b.drop 16).take 16 ++
          (b.drop 32).take 16 ++ (b.drop 48).take 8 := by
        rw [List.take_add, List.take_add, List.take_add]
      show b.take 16 ++ (b.drop 16).take 16 ++ (b.drop 32).take 16 ++
        bigEndian 8 (UInt64.ofNat (ofBigEndian ((b.drop 48).take 8))).toNat ++ sizedCertificate c =
          b.take (16 + 16 + 16 + 8) ++ sizedCertificate c
      rw [htake, bigEndian_ofNat_ofBigEndian hheight]

theorem RecordedTransaction.sizedRecord :
    SizedRecord .transaction headerSize encode decode certificate where
  le_header := by decide
  length_encode := length_encode
  short := by
    intro b h
    rw [decode, dif_pos h]
  decoded := by
    intro b h
    have hb : 72 ≤ b.length := h
    refine ⟨fun c => ⟨identifierAt b 0 (by omega), identifierAt b 16 (by omega),
      identifierAt b 32 (by omega), identifierAt b 48 (by omega), c⟩, ?_, ?_⟩
    · rw [decode, dif_neg (Nat.not_lt.mpr h)]
      rfl
    · intro c
      have htake : b.take (16 + 16 + 16 + 16) = b.take 16 ++ (b.drop 16).take 16 ++
          (b.drop 32).take 16 ++ (b.drop 48).take 16 := by
        rw [List.take_add, List.take_add, List.take_add]
      show b.take 16 ++ (b.drop 16).take 16 ++ (b.drop 32).take 16 ++ (b.drop 48).take 16 ++
        sizedCertificate c = b.take (16 + 16 + 16 + 16) ++ sizedCertificate c
      rw [htake]

theorem Artifact.encode_decode {a : Artifact} (h : decode b = .ok a) : encode a = b := by
  by_cases hb : b.length = recordSize
  · have htake : b.take (16 + 16 + 16 + 16 + 16) = b.take 16 ++ (b.drop 16).take 16 ++
        (b.drop 32).take 16 ++ (b.drop 48).take 16 ++ (b.drop 64).take 16 := by
      rw [List.take_add, List.take_add, List.take_add, List.take_add]
    rw [decode, dif_pos hb] at h
    cases h
    show b.take 16 ++ (b.drop 16).take 16 ++ (b.drop 32).take 16 ++ (b.drop 48).take 16 ++
      (b.drop 64).take 16 = b
    rw [← htake]
    exact List.take_of_length_le (Nat.le_of_eq hb)
  · rw [decode, dif_neg hb] at h
    cases h

theorem Artifact.canonical : CanonicalCodec .artifact encode decode read (fun a => a) (fun _ => True)
    (fun b => b.length = recordSize) (fun b => .wrongSize b.length recordSize) where
  decode_encode := fun a => iff_true_intro (decode_encode a)
  encode_decode := fun b a h => encode_decode h
  accepts := by
    intro b
    constructor
    · rintro ⟨a, ha⟩
      have hlength : a.encode.length = recordSize := by simp [encode, recordSize]
      rw [← encode_decode ha]
      exact hlength
    · intro hb
      exact ⟨_, by rw [decode, dif_pos hb]⟩
  refuses := by
    intro b hb
    rw [decode, dif_neg hb]
  in_bounds := fun b => read_eq

/-- All three kinds of records are canonical. -/
theorem records_canonical :
    CanonicalCodec .block Block.encode Block.decode Block.read Block.shown
      (fun b => b.certificate.visible < 2 ^ 64) (Sized 64) (sizeFault 64) ∧
    CanonicalCodec .transaction RecordedTransaction.encode RecordedTransaction.decode
      RecordedTransaction.read RecordedTransaction.shown
      (fun r => r.certificate.visible < 2 ^ 64) (Sized 72) (sizeFault 72) ∧
    CanonicalCodec .artifact Artifact.encode Artifact.decode Artifact.read (fun a => a)
      (fun _ => True) (fun b => b.length = 80) (fun b => .wrongSize b.length 80) :=
  ⟨Block.sizedRecord.canonical (fun _ => Block.decode_encode) (fun _ => Block.read_eq),
    RecordedTransaction.sizedRecord.canonical (fun _ => RecordedTransaction.decode_encode)
      (fun _ => RecordedTransaction.read_eq),
    Artifact.canonical⟩

end SignedLedger
