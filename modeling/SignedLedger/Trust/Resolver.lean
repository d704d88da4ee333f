import SignedLedger.Trust.Error
import SignedLedger.FiniteMap

/-! What attestation asks about the world: the keys of entities at a height, the latest transaction of
artifacts, and the contracts of certificate types. -/

namespace SignedLedger

structure EntityKeys where
  encryption : Bytes
  signing : Bytes
deriving DecidableEq

/-- A check of what a certificate says, after its signature has been verified. -/
abbrev Contract := Certificate → Except String Unit

abbrev EntityResolver := EntityId → UInt64 → Except ResolverError EntityKeys

abbrev ArtifactResolver := ArtifactId → Except ResolverError (Option TransactionId)

abbrev ContractResolver := CertificateType → Option ArtifactId → Option Contract

structure Resolvers where
  entities : EntityResolver
  artifacts : ArtifactResolver
  contracts : ContractResolver

def ArtifactResolver.none : ArtifactResolver :=
  fun _ => .ok Option.none

def ContractResolver.none : ContractResolver :=
  fun _ _ => Option.none

/-- Keys and the height from which they are in force. -/
structure Registration where
  keys : EntityKeys
  activeFrom : UInt64
deriving DecidableEq

structure EntityRegistry where
  entities : FiniteMap EntityId Registration := .empty

namespace EntityRegistry

/-- Registers keys, or replaces the ones registered before. -/
def register (r : EntityRegistry) (entity : EntityId) (keys : EntityKeys) (activeFrom : UInt64) : EntityRegistry :=
  ⟨r.entities.insert entity ⟨keys, activeFrom⟩⟩

def remove (r : EntityRegistry) (entity : EntityId) : EntityRegistry :=
  ⟨r.entities.erase entity⟩

/-- A registration counts at heights from its own on. -/
def resolve (r : EntityRegistry) : EntityResolver := fun entity height =>
  match r.entities.get? entity with
  | some registration =>
    if registration.activeFrom ≤ height then .ok registration.keys
    else .error (.unknownEntity entity height)
  | none => .error (.unknownEntity entity height)

end EntityRegistry

/-- A registry in front of which some entities have lost their signing certificate and others cannot
be reached. -/
structure EntityDirectory where
  registry : EntityRegistry := {}
  uncertified : List EntityId := []
  offline : List EntityId := []

def EntityDirectory.resolve (d : EntityDirectory) : EntityResolver := fun entity height =>
  if entity ∈ d.uncertified then .error (.missingSigningCertificate entity)
  else if entity ∈ d.offline then .error (.backend "entities offline")
  else d.registry.resolve entity height

/-- Latest transactions of artifacts, some of which cannot be reached. -/
structure ArtifactDirectory where
  latest : FiniteMap ArtifactId TransactionId := .empty
  offline : List ArtifactId := []

def ArtifactDirectory.resolve (d : ArtifactDirectory) : ArtifactResolver := fun artifact =>
  if artifact ∈ d.offline then .error (.backend "artifacts offline")
  else .ok (d.latest.get? artifact)

/-- Contracts by type, and contracts for single artifacts. -/
structure ContractRegistry where
  byType : FiniteMap CertificateType Contract := .empty
  byArtifact : FiniteMap (CertificateType × ArtifactId) Contract := .empty

namespace ContractRegistry

def register (r : ContractRegistry) (type : CertificateType) (contract : Contract) : ContractRegistry :=
  { r with byType := r.byType.insert type contract }

def registerFor (r : ContractRegistry) (type : CertificateType) (artifact : ArtifactId) (contract : Contract) :
    ContractRegistry :=
  { r with byArtifact := r.byArtifact.insert (type, artifact) contract }

/-- A contract for the artifact comes before the one for the type. -/
def resolve (r : ContractRegistry) : ContractResolver := fun type artifact =>
  match artifact.bind fun a => r.byArtifact.get? (type, a) with
  | some contract => some contract
  | none => r.byType.get? type

end ContractRegistry

end SignedLedger
