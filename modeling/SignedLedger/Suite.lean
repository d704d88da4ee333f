import SignedLedger.Field.Tag

/-! Cryptographic suites. A suite is the record of the operations that the ledger asks for; keys and
signatures are byte strings, so that suites with keys of other sizes fit as well. -/

namespace SignedLedger

abbrev Digest := FixedBytes 32

abbrev SymmetricKey := FixedBytes 32

abbrev Nonce := FixedBytes 12

/-- Sixteen digits are enough to tell digests apart when reading. -/
def digestDebugText (d : Digest) : String :=
  s!"Digest({hex (d.toList.take 8)})"

inductive CryptoError where
  | invalidPrivateKey
  | invalidPublicKey
  | encryption (reason : String)
  | decryption (reason : String)
deriving DecidableEq

def CryptoError.message : CryptoError → String
  | invalidPrivateKey => "invalid private key"
  | invalidPublicKey => "invalid public key"
  | encryption reason => s!"encryption error: {reason}"
  | decryption reason => s!"decryption error: {reason}"

structure Suite where
  id : UInt16
  /-- The size that every signature of the suite is declared to have. -/
  signatureSize : Nat
  sign (privateKey message : Bytes) : Except CryptoError Bytes
  verify (publicKey signature message : Bytes) : Bool
  digest (data : Bytes) : Digest
  deriveKey (secret context : Bytes) : SymmetricKey
  agree (secret peer : Bytes) : Except CryptoError SymmetricKey
  encrypt (key : SymmetricKey) (nonce : Nonce) (plain : Bytes) : Except CryptoError Bytes
  decrypt (key : SymmetricKey) (nonce : Nonce) (box : Bytes) : Except CryptoError Bytes

def Suite.debugText (s : Suite) : String :=
  s!"CryptoContext(suite={hexWord s.id})"

end SignedLedger
