import SignedLedger.Trust.Resolver

/-! Attestation: whether a certificate is trusted. The checks run in a fixed order and the first one
that fails gives the reason. Everything after the look-up of the signer's keys reads only the bytes up
to the end of the signature. A nested certificate is attested by the same rules one level deeper,
except that only the outermost one has to agree with the state of its artifact. -/

namespace SignedLedger

structure AttestOptions where
  /-- The height at which keys are looked up. -/
  height : UInt64 := 0
  validateContract : Bool := false
deriving DecidableEq

structure Attestation where
  signer : EntityId
  /-- The visible size of the certificate once it is narrowed. -/
  visible : Nat
  /-- The number of certificates nested one in the other below this one. -/
  chainDepth : Nat
deriving DecidableEq

def maxChainDepth : Nat := 8

namespace Attestation

/-- A certificate whose signature has been verified, narrowed to the end of the signature. -/
structure Verified where
  signer : EntityId
  signed : Certificate

/-- Checks the signer, the keys, the declared author and the signature, in this order. The signature
has to cover the field that names the signer. -/
def verify (suite : Suite) (entities : EntityResolver) (height : UInt64) (c : Certificate) :
    Except AttestationError Verified := do
  let some signerField ← structural (liftCodec (c.field .signerId)) | throw .missingSignerId
  let signer ← structural (Identifier.ofField .signerId signerField.value)
  let some region ← structural (liftCodec c.signedRegion) | throw .missingSignature
  let keys ← (entities signer height).mapError .resolver
  if keys.signing = [] then throw (.missingSigningKey signer)
  let signed := c.narrow region.signature.stop
  if let some declared ← structural (signed.identifier .authorId) then
    if declared ≠ signer then throw (.authorMismatch declared signer)
  if region.signature.offset < signerField.stop
      || !suite.verify keys.signing region.signature.value region.message then
    throw .signatureMismatch
  pure { signer, signed }

/-- The number of certificates nested below, each of which is attested by `attestNested`. -/
def chainDepthOf (attestNested : Certificate → Except AttestationError Nat) (signed : Certificate) :
    Except AttestationError Nat := do
  match ← structural (liftCodec (signed.field .chainCertificate)) with
  | some f => attestNested f.nested
  | none => pure 0

/-- The declared previous transaction has to be the latest one of the artifact. -/
def checkArtifactState (artifacts : ArtifactResolver) (signed : Certificate) (artifact : ArtifactId) :
    Except AttestationError Unit := do
  let previous ← structural (signed.identifier .previousTransactionId)
  let latest ← (artifacts artifact).mapError .resolver
  let declared := previous.getD .nil
  let expected := latest.getD .nil
  if declared ≠ expected then throw (.artifactConflict artifact expected declared)

def checkContract (contracts : ContractResolver) (signed : Certificate) (artifact : Option ArtifactId) :
    Except AttestationError Unit := do
  let some type ← structural signed.certificateType | throw .missingTransactionType
  match contracts type artifact with
  | none => throw (.missingContract type artifact)
  | some contract => (contract signed).mapError .contractFailure

/-- All checks on one certificate, at the given depth of nesting. -/
def check (suite : Suite) (r : Resolvers) (o : AttestOptions) (depth : Nat)
    (attestNested : Certificate → Except AttestationError Nat) (c : Certificate) :
    Except AttestationError Attestation := do
  let v ← verify suite r.entities o.height c
  let chainDepth ← chainDepthOf attestNested v.signed
  let artifact ← structural (v.signed.identifier .artifactId)
  if depth = 0 then
    if let some a := artifact then checkArtifactState r.artifacts v.signed a
  if o.validateContract then checkContract r.contracts v.signed artifact
  pure { signer := v.signer, visible := v.signed.visible, chainDepth }

/-- The failure of a nested certificate as seen from the one around it. That an entity has no signing
certificate is passed on as it is, for whoever can supply the certificate. -/
def wrapFailure (depth : Nat) : AttestationError → AttestationError
  | .resolver (.missingSigningCertificate entity) => .resolver (.missingSigningCertificate entity)
  | e => .chainFailure depth e

/-- Attests a certificate below which `levels` more may be nested. -/
def attestAt (suite : Suite) (r : Resolvers) (o : AttestOptions) :
    (levels : Nat) → Certificate → Except AttestationError Attestation
  | 0, c => check suite r o maxChainDepth (fun _ => .error (.chainTooDeep maxChainDepth)) c
  | levels + 1, c =>
    let depth := maxChainDepth - (levels + 1)
    check suite r o depth (fun nested =>
      match attestAt suite r o levels nested with
      | .ok a => .ok (a.chainDepth + 1)
      | .error e => .error (wrapFailure (depth + 1) e)) c

end Attestation

namespace Certificate

def attestation (c : Certificate) (suite : Suite) (r : Resolvers) (o : AttestOptions) :
    Except AttestationError Attestation :=
  Attestation.attestAt suite r o maxChainDepth c

/-- Attests a certificate. Success narrows it to the end of its signature, failure leaves it alone. -/
def attest (c : Certificate) (suite : Suite) (r : Resolvers) (o : AttestOptions) :
    Except AttestationError Attestation × Certificate :=
  match c.attestation suite r o with
  | .ok a => (.ok a, c.narrow a.visible)
  | .error e => (.error e, c)

end Certificate

end SignedLedger
