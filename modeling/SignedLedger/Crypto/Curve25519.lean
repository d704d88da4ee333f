import SignedLedger.Crypto.LittleEndian

/-! The field of residues modulo `2 ^ 255 - 19` and the twisted Edwards curve over it. Residues are
natural numbers below the modulus. -/

namespace SignedLedger.Crypto.Curve25519

def modulus : Nat := 2 ^ 255 - 19

def add (a b : Nat) : Nat := (a + b) % modulus
def sub (a b : Nat) : Nat := (a + (modulus - b % modulus)) % modulus
def mul (a b : Nat) : Nat := a * b % modulus
def square (a : Nat) : Nat := mul a a

def pow (a e : Nat) : Nat :=
  (List.range 256).foldl (fun r i =>
    let r := square r
    if e.testBit (255 - i) then mul r a else r) 1

def inverse (a : Nat) : Nat :=
  pow a (modulus - 2)

def rootMinusOne : Nat :=
  pow 2 ((modulus - 1) / 4)

/-- The constant of the curve equation `y ^ 2 - x ^ 2 = 1 + d * x ^ 2 * y ^ 2`. -/
def curveConstant : Nat :=
  mul (modulus - 121665) (inverse 121666)

/-- The even root of `u / v`, if there is one. -/
def rootOfRatio? (u v : Nat) : Option Nat :=
  let v3 := mul (square v) v
  let v7 := mul (square v3) v
  let r := mul (mul u v3) (pow (mul u v7) ((modulus - 5) / 8))
  let check := mul v (square r)
  let even (r : Nat) : Nat := if r % 2 = 1 then sub 0 r else r
  if check = u % modulus then some (even r)
  else if check = sub 0 u then some (even (mul r rootMinusOne))
  else none

/-- Turns a number into a secret scalar: the lowest three bits and the highest one are cleared, the
next one is set. -/
def clamp (n : Nat) : Nat :=
  n % 2 ^ 254 / 8 * 8 + 2 ^ 254

/-- A point in extended coordinates: `x / z`, `y / z`, and `t / z` is their product. -/
structure Point where
  x : Nat
  y : Nat
  z : Nat
  t : Nat

namespace Point

def identity : Point := ⟨0, 1, 1, 0⟩

def ofAffine (x y : Nat) : Point := ⟨x, y, 1, mul x y⟩

def neg (p : Point) : Point := ⟨sub 0 p.x, p.y, p.z, sub 0 p.t⟩

/-- The addition law is complete: it also doubles. -/
def sum (p q : Point) : Point :=
  let a := mul (sub p.y p.x) (sub q.y q.x)
  let b := mul (add p.y p.x) (add q.y q.x)
  let c := mul (mul (add p.t p.t) curveConstant) q.t
  let d := mul (add p.z p.z) q.z
  let e := sub b a
  let f := sub d c
  let g := add d c
  let h := add b a
  ⟨mul e f, mul g h, mul f g, mul e h⟩

def scale (n : Nat) (p : Point) : Point :=
  (List.range 256).foldl (fun r i =>
    let r := r.sum r
    if n.testBit (255 - i) then r.sum p else r) identity

def compress (p : Point) : FixedBytes 32 :=
  let zi := inverse p.z
  let x := mul p.x zi
  let y := mul p.y zi
  ⟨littleEndian 32 (y + x % 2 * 2 ^ 255), length_littleEndian ..⟩

/-- The `y` coordinate need not be reduced, and the parity of a zero `x` is not looked at. -/
def decompress? (b : FixedBytes 32) : Option Point := do
  let n := ofLittleEndian b.toList
  let y := n % 2 ^ 255 % modulus
  let yy := square y
  let x ← rootOfRatio? (sub yy 1) (add (mul curveConstant yy) 1)
  pure (ofAffine (if n.testBit 255 then sub 0 x else x) y)

/-- The point with `y = 4 / 5` and even `x`. -/
def base : Point :=
  (decompress? ⟨littleEndian 32 (mul 4 (inverse 5)), length_littleEndian ..⟩).getD identity

end Point

end SignedLedger.Crypto.Curve25519
