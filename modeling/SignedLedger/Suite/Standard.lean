import SignedLedger.Suite
import SignedLedger.Crypto.Blake3
import SignedLedger.Crypto.Ed25519
import SignedLedger.Crypto.X25519
import SignedLedger.Crypto.Sealed

/-! The standard suite: Ed25519 signatures, BLAKE3 digests, X25519 key agreement, and authenticated
encryption with ChaCha20 and Poly1305. -/

namespace SignedLedger

open Crypto

namespace Suite

/-- What derived keys are for; it separates them from all other uses of the hash. -/
def keyPurpose : Bytes :=
  [0x63, 0x65, 0x72, 0x74, 0x6c, 0x65, 0x64, 0x67, 0x65, 0x72, 0x2d, 0x76, 0x31,
   0x20, 0x64, 0x65, 0x72, 0x69, 0x76, 0x65, 0x64, 0x20, 0x6b, 0x65, 0x79]

def standard : Suite where
  id := 1
  signatureSize := 64
  sign privateKey message :=
    match FixedBytes.ofList? 32 privateKey with
    | none => .error .invalidPrivateKey
    | some seed => .ok (Ed25519.sign seed message).toList
  verify publicKey signature message :=
    match FixedBytes.ofList? 32 publicKey, FixedBytes.ofList? 64 signature with
    | some key, some s => Ed25519.verify key s message
    | _, _ => false
  digest := Blake3.hash
  deriveKey secret context := Blake3.deriveKey keyPurpose (secret ++ context)
  agree secret peer :=
    match FixedBytes.ofList? 32 secret, FixedBytes.ofList? 32 peer with
    | none, _ => .error .invalidPrivateKey
    | some _, none => .error .invalidPublicKey
    | some s, some p => .ok (X25519.agree s p)
  encrypt key nonce plain := .ok (Sealed.encrypt key nonce plain)
  decrypt key nonce box :=
    match Sealed.decrypt? key nonce box with
    | some plain => .ok plain
    | none => .error (.decryption "aead::Error")

end Suite

/-- A signing key pair, made from its seed. The seed is the private key. -/
structure Keypair where
  seed : FixedBytes 32

namespace Keypair

def publicKey (k : Keypair) : FixedBytes 32 :=
  Ed25519.publicKey k.seed

def privateKey (k : Keypair) : Bytes :=
  k.seed.toList

def debugText (k : Keypair) : String :=
  s!"Keypair({hex (k.publicKey.toList.take 8)})"

end Keypair

/-- A secret for key agreement. -/
structure AgreementSecret where
  secret : FixedBytes 32

def AgreementSecret.publicKey (s : AgreementSecret) : FixedBytes 32 :=
  X25519.publicKey s.secret

end SignedLedger
