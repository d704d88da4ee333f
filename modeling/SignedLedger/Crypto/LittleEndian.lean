import SignedLedger.Bytes

/-! Integers with the least significant byte first, as the cryptographic primitives write them. -/

namespace SignedLedger.Crypto

def littleEndian (width n : Nat) : Bytes :=
  (bigEndian width n).reverse

def ofLittleEndian (b : Bytes) : Nat :=
  ofBigEndian b.reverse

@[simp] theorem length_littleEndian (width n : Nat) : (littleEndian width n).length = width := by
  simp [littleEndian]

theorem ofLittleEndian_littleEndian {width n : Nat} (h : n < 256 ^ width) :
    ofLittleEndian (littleEndian width n) = n := by
  simp [ofLittleEndian, littleEndian, ofBigEndian_bigEndian h]

instance neZeroSixteen : NeZero 16 :=
  ⟨by decide⟩

def put {α : Type} {n : Nat} (s : Vector α n) (i : Fin n) (x : α) : Vector α n :=
  s.set i.val x i.isLt

/-- The word whose lowest byte is at `4 * i`. Bytes past the end count as zero. -/
def word32 (b : Array UInt8) (i : Nat) : UInt32 :=
  let byte (k : Nat) : UInt32 := (b.getD (4 * i + k) 0).toUInt32
  byte 0 ||| byte 1 <<< 8 ||| byte 2 <<< 16 ||| byte 3 <<< 24

def bytes32 {n : Nat} (words : Vector UInt32 n) : FixedBytes (4 * n) :=
  ⟨List.ofFn fun i : Fin (4 * n) =>
      (words.get ⟨i.val / 4, by omega⟩ >>> (8 * (UInt32.ofNat (i.val % 4)))).toUInt8,
    List.length_ofFn⟩

/-- Pieces of `size` bytes, the last one possibly shorter. There is always at least one piece. -/
def pieces (size : Nat) (b : Bytes) : List Bytes :=
  if _ : size = 0 ∨ b.length ≤ size then [b]
  else b.take size :: pieces size (b.drop size)
termination_by b.length
decreasing_by simp only [List.length_drop]; omega

end SignedLedger.Crypto
