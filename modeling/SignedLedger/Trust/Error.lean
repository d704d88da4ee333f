import SignedLedger.Certificate

/-! Why a certificate is not trusted. A failure inside a chain of nested certificates carries the
depth of the nested certificate and the failure there. -/

namespace SignedLedger

inductive ResolverError where
  | unknownEntity (entity : EntityId) (height : UInt64)
  | missingSigningCertificate (entity : EntityId)
  | backend (reason : String)
deriving DecidableEq

def ResolverError.message : ResolverError → String
  | unknownEntity entity height => s!"unknown entity {entity.text} at height {height}"
  | missingSigningCertificate entity => s!"missing signing certificate for entity {entity.text}"
  | backend reason => s!"resolver backend failure: {reason}"

inductive AttestationError where
  | structural (cause : CertificateError)
  | missingSignerId
  | missingSignature
  | missingTransactionType
  | missingArtifactId
  | resolver (cause : ResolverError)
  | missingSigningKey (signer : EntityId)
  | authorMismatch (declared signer : EntityId)
  | signatureMismatch
  | chainFailure (depth : Nat) (source : AttestationError)
  | chainTooDeep (limit : Nat)
  | artifactConflict (artifact : ArtifactId) (expected declared : TransactionId)
  | missingContract (type : CertificateType) (artifact : Option ArtifactId)
  | contractFailure (reason : String)
deriving DecidableEq

namespace AttestationError

def message : AttestationError → String
  | structural cause => s!"structural error: {cause.message}"
  | missingSignerId => "certificate has no signer id"
  | missingSignature => "certificate has no signature"
  | missingTransactionType => "certificate has no transaction type"
  | missingArtifactId => "certificate has no artifact id"
  | resolver cause => cause.message
  | missingSigningKey signer => s!"signer {signer.text} has no signing key"
  | authorMismatch declared signer =>
    s!"certificate declares author {declared.text} but was signed by {signer.text}"
  | signatureMismatch => "signature verification failed"
  | chainFailure depth source => s!"chain attestation failed at depth {depth}: {source.message}"
  | chainTooDeep limit => s!"certificate chain exceeds maximum depth of {limit}"
  | artifactConflict artifact expected declared =>
    s!"artifact {artifact.text} expects previous transaction {expected.text}, certificate declares {declared.text}"
  | missingContract type _ => s!"no contract for certificate type {hexWord type.number}"
  | contractFailure reason => s!"contract verification failed: {reason}"

/-- The failure at the bottom of the chain. -/
def rootCause : AttestationError → AttestationError
  | chainFailure _ source => source.rootCause
  | e => e

/-- Whether the certificate is malformed, as opposed to not trusted. -/
def isStructural : AttestationError → Bool
  | structural _ | missingSignerId | missingSignature | missingTransactionType | missingArtifactId => true
  | _ => false

end AttestationError

/-- Takes an error in the structure for a reason not to trust. -/
def structural {α : Type} (r : Except CertificateError α) : Except AttestationError α :=
  r.mapError .structural

end SignedLedger
