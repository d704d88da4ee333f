import SignedLedger.Crypto.Curve25519

/-! X25519 key agreement on the Montgomery form of the curve. Only the `u` coordinate is computed;
a shared secret of zero is an answer like any other. -/

namespace SignedLedger.Crypto.X25519

open Curve25519

/-- Two points in projective `u` coordinates whose difference is the point that is scaled. -/
structure Ladder where
  x2 : Nat
  z2 : Nat
  x3 : Nat
  z3 : Nat

def Ladder.swap (l : Ladder) : Ladder := ⟨l.x3, l.z3, l.x2, l.z2⟩

/-- Doubles the first point and adds the first to the second. -/
def Ladder.advance (u : Nat) (l : Ladder) : Ladder :=
  let a := add l.x2 l.z2
  let b := sub l.x2 l.z2
  let aa := square a
  let bb := square b
  let e := sub aa bb
  let da := mul (sub l.x3 l.z3) a
  let cb := mul (add l.x3 l.z3) b
  { x2 := mul aa bb
    z2 := mul e (add aa (mul 121665 e))
    x3 := square (add da cb)
    z3 := mul u (square (sub da cb)) }

def scale (n u : Nat) : Nat :=
  let l := (List.range 255).foldl (fun (l : Ladder) i =>
    if n.testBit (254 - i) then (l.swap.advance u).swap else l.advance u) ⟨1, 0, u, 1⟩
  mul l.x2 (inverse l.z2)

/-- The highest bit of the peer's coordinate is ignored. -/
def agree (secret peer : FixedBytes 32) : FixedBytes 32 :=
  let u := ofLittleEndian peer.toList % 2 ^ 255 % modulus
  ⟨littleEndian 32 (scale (clamp (ofLittleEndian secret.toList)) u), length_littleEndian ..⟩

def publicKey (secret : FixedBytes 32) : FixedBytes 32 :=
  agree secret ⟨littleEndian 32 9, length_littleEndian ..⟩

end SignedLedger.Crypto.X25519
