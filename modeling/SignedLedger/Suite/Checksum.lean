import SignedLedger.Suite.Standard

/-! A suite whose signature is a running checksum and whose public keys are the private ones. It is
for trying out what depends on a suite's identifier and signature size. The size it declares and the
size of what it signs are independent. -/

namespace SignedLedger.Suite

def checksumSign (size : Nat) (key message : Bytes) : Except CryptoError Bytes :=
  if key = [] then .error .invalidPrivateKey
  else
    let sum := (key ++ message).foldl (· + ·) 0
    .ok ((List.range size).map fun i => sum + UInt8.ofNat i)

def checksum (id : UInt16) (declared actual : Nat) : Suite :=
  { standard with
    id
    signatureSize := declared
    sign := checksumSign actual
    verify := fun publicKey signature message =>
      match checksumSign actual publicKey message with
      | .ok s => s == signature
      | .error _ => false }

end SignedLedger.Suite
