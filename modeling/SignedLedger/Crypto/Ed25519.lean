import SignedLedger.Crypto.Curve25519
import SignedLedger.Crypto.Sha512

/-! Ed25519 signatures. Verification compares the first half of the signature with the encoding of
the recomputed point byte by byte, without a cofactor. The second half has to be reduced. Keys of
small order and keys that are not reduced are taken as they are. -/

namespace SignedLedger.Crypto.Ed25519

open Curve25519

def order : Nat := 2 ^ 252 + 27742317777372353535851937790883648493

/-- The secret scalar and the part of the seed's hash that makes nonces. -/
def expand (seed : FixedBytes 32) : Nat × Bytes :=
  let h := Sha512.hash seed.toList
  (clamp (ofLittleEndian (h.take 32)), h.drop 32)

def publicKey (seed : FixedBytes 32) : FixedBytes 32 :=
  (Point.base.scale (expand seed).1).compress

def hashToScalar (parts : List Bytes) : Nat :=
  ofLittleEndian (Sha512.hash parts.flatten) % order

def sign (seed : FixedBytes 32) (message : Bytes) : FixedBytes 64 :=
  let (secret, nonces) := expand seed
  let key := (publicKey seed).toList
  let nonce := hashToScalar [nonces, message]
  let r := (Point.base.scale nonce).compress
  let k := hashToScalar [r.toList, key, message]
  let s := (nonce + k * secret) % order
  ⟨r.toList ++ littleEndian 32 s, by simp [r.length_toList]⟩

def verify (key : FixedBytes 32) (signature : FixedBytes 64) (message : Bytes) : Bool :=
  match Point.decompress? key with
  | none => false
  | some a =>
    let r := signature.toList.take 32
    let s := ofLittleEndian (signature.toList.drop 32)
    let k := hashToScalar [r, key.toList, message]
    s < order && ((Point.base.scale s).sum (a.neg.scale k)).compress.toList == r

end SignedLedger.Crypto.Ed25519
