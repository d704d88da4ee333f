import SignedLedger.Suite.Standard
import SignedLedger.Transaction
import SignedLedger.Trust.Resolver

/-! Ready-made identities and transactions for trying out a ledger. An identity is made from the seed
of its key pair; the entity is named by the digest of the seed. -/

namespace SignedLedger

structure Fixture where
  entity : EntityId
  keypair : Keypair

namespace Fixture

def ofSeed (seed : FixedBytes 32) : Fixture :=
  { entity := ⟨(Suite.standard.digest seed.toList).toList.take 16, by
      simp [(Suite.standard.digest seed.toList).length_toList]⟩
    keypair := ⟨seed⟩ }

/-- Identities from seeds whose first byte counts up. -/
def parties (count : Nat) : List Fixture :=
  (List.range count).map fun i =>
    ofSeed ⟨UInt8.ofNat i :: List.replicate 31 0, by simp⟩

/-- What a resolver that knows the identity answers. -/
def keys (f : Fixture) : EntityKeys :=
  { encryption := [], signing := f.keypair.publicKey.toList }

def registry (fixtures : List Fixture) : EntityRegistry :=
  fixtures.foldl (fun r f => r.register f.entity f.keys 0) {}

def transactionType : CertificateType := ⟨0x0100⟩

def payload : Tag := ⟨0x0400⟩

def sign (f : Fixture) (draft : TransactionDraft) (now : UInt64) : Except CertificateError Certificate :=
  draft.sign .standard now f.entity f.keypair.privateKey

/-- A transaction with one payload field. The caller chooses a fresh identifier. -/
def transaction (f : Fixture) (id : TransactionId) (now : UInt64) (artifact : ArtifactId)
    (previous : TransactionId) (data : Bytes) : Except CertificateError Certificate :=
  f.sign { type := transactionType, id, artifact, previous, fields := [(payload, data)] } now

end Fixture

end SignedLedger
