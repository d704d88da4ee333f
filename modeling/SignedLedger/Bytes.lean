/-! Byte strings. An integer is written in a fixed width with the most significant byte first;
reading undoes writing for the integers that fit, and writing undoes reading for every byte string. -/

namespace SignedLedger

/-! Powers and zeros are those of the core library in every module, also where Mathlib offers its own. -/

attribute [instance (high), default_instance (high + 1)] instPowNat
attribute [instance (high)] Zero.ofOfNat0

abbrev Bytes := List UInt8

/-- The lowest `width` base 256 digits of `n`, most significant first. -/
def bigEndian : (width : Nat) → (n : Nat) → Bytes
  | 0, _ => []
  | width + 1, n => bigEndian width (n / 256) ++ [UInt8.ofNat n]

def ofBigEndian (b : Bytes) : Nat :=
  b.foldl (fun n x => 256 * n + x.toNat) 0

@[simp] theorem length_bigEndian (width n : Nat) : (bigEndian width n).length = width := by
  induction width generalizing n with
  | zero => rfl
  | succ width ih => simp [bigEndian, ih]

@[simp] theorem ofBigEndian_nil : ofBigEndian [] = 0 := rfl

@[simp] theorem ofBigEndian_append_singleton (b : Bytes) (x : UInt8) :
    ofBigEndian (b ++ [x]) = 256 * ofBigEndian b + x.toNat := by
  simp [ofBigEndian]

theorem ofBigEndian_bigEndian {width n : Nat} (h : n < 256 ^ width) :
    ofBigEndian (bigEndian width n) = n := by
  induction width generalizing n with
  | zero => simp at h; simp [bigEndian, h]
  | succ width ih =>
    have hd : n / 256 < 256 ^ width := by
      rw [Nat.pow_succ] at h
      exact Nat.div_lt_of_lt_mul (by omega)
    have hx : (UInt8.ofNat n).toNat = n % 256 := by simp
    rw [bigEndian, ofBigEndian_append_singleton, ih hd, hx]
    omega

theorem ofBigEndian_lt (b : Bytes) : ofBigEndian b < 256 ^ b.length := by
  induction h : b.length generalizing b with
  | zero => simp [List.length_eq_zero_iff.mp h]
  | succ k ih =>
    obtain ⟨r, x, rfl⟩ : ∃ r x, b = r ++ [x] :=
      ⟨b.dropLast, b.getLast (by intro he; simp [he] at h), (List.dropLast_concat_getLast _).symm⟩
    have hr := ih r (by simpa using h)
    have hx := x.toNat_lt
    rw [ofBigEndian_append_singleton, Nat.pow_succ]
    omega

theorem bigEndian_ofBigEndian (b : Bytes) : bigEndian b.length (ofBigEndian b) = b := by
  induction h : b.length generalizing b with
  | zero => simp [List.length_eq_zero_iff.mp h, bigEndian]
  | succ k ih =>
    obtain ⟨r, x, rfl⟩ : ∃ r x, b = r ++ [x] :=
      ⟨b.dropLast, b.getLast (by intro he; simp [he] at h), (List.dropLast_concat_getLast _).symm⟩
    have hk : r.length = k := by simpa using h
    have hx := x.toNat_lt
    have hq : (256 * ofBigEndian r + x.toNat) / 256 = ofBigEndian r := by omega
    have hl : UInt8.ofNat (256 * ofBigEndian r + x.toNat) = x := by
      apply UInt8.toNat_inj.mp
      simp
    rw [ofBigEndian_append_singleton, bigEndian, hq, ih r hk, hl]

/-- Two lower case digits for every byte. -/
def hex (b : Bytes) : String :=
  String.ofList (b.flatMap fun x => [Nat.digitChar (x.toNat / 16), Nat.digitChar (x.toNat % 16)])

/-- A hexadecimal digit in either case. -/
def hexDigit? (c : Char) : Option Nat :=
  if '0' ≤ c ∧ c ≤ '9' then some (c.toNat - '0'.toNat)
  else if 'a' ≤ c ∧ c ≤ 'f' then some (c.toNat - 'a'.toNat + 10)
  else if 'A' ≤ c ∧ c ≤ 'F' then some (c.toNat - 'A'.toNat + 10)
  else none

def ofHex? : List Char → Option Bytes
  | [] => some []
  | [_] => none
  | high :: low :: rest => do
    let h ← hexDigit? high
    let l ← hexDigit? low
    let b ← ofHex? rest
    pure (UInt8.ofNat (16 * h + l) :: b)

structure FixedBytes (n : Nat) where
  toList : Bytes
  length_toList : toList.length = n
deriving DecidableEq

namespace FixedBytes

def ofList? (n : Nat) (b : Bytes) : Option (FixedBytes n) :=
  if h : b.length = n then some ⟨b, h⟩ else none

def ofNat (n v : Nat) : FixedBytes n :=
  ⟨bigEndian n v, length_bigEndian n v⟩

def zero (n : Nat) : FixedBytes n :=
  ⟨List.replicate n 0, List.length_replicate⟩

theorem ext {n : Nat} {a b : FixedBytes n} (h : a.toList = b.toList) : a = b := by
  cases a
  cases b
  simp_all

@[simp] theorem ofList?_toList {n : Nat} (a : FixedBytes n) : ofList? n a.toList = some a := by
  simp [ofList?, a.length_toList]

theorem ofList?_eq_some_iff {n : Nat} {b : Bytes} {a : FixedBytes n} :
    ofList? n b = some a ↔ b = a.toList := by
  constructor
  · intro h
    unfold ofList? at h
    split at h
    · cases h
      rfl
    · cases h
  · rintro rfl
    exact ofList?_toList a

end FixedBytes

end SignedLedger
