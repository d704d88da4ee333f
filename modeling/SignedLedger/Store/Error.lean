import SignedLedger.Trust.Error

/-! Why an operation of a store fails. -/

namespace SignedLedger

inductive RecordKind where
  | block
  | transaction
  | artifact
  | height
deriving DecidableEq

def RecordKind.name : RecordKind → String
  | block => "block"
  | transaction => "transaction"
  | artifact => "artifact"
  | height => "height"

inductive RecordFault where
  | tooShort (size least : Nat)
  | sizeDisagrees (recorded actual : Nat)
  | wrongSize (size expected : Nat)
  | wrongIdSize (size : Nat)
deriving DecidableEq

def RecordFault.message : RecordFault → String
  | tooShort size least => s!"{size} bytes, expected at least {least}"
  | sizeDisagrees recorded actual => s!"recorded size {recorded} but {actual} bytes follow"
  | wrongSize size expected => s!"{size} bytes, expected {expected}"
  | wrongIdSize size => s!"{size} byte block id"

inductive StoreError where
  /-- The database below the store refuses. -/
  | database
  | certificate (cause : CertificateError)
  | invalidTransaction (cause : AttestationError)
  | duplicateTransaction (id : TransactionId)
  | missingPrevious (transaction previous : TransactionId)
  | artifactConflict (artifact : ArtifactId) (expected declared : TransactionId)
  | blockNotFound (id : BlockId)
  | transactionNotFound (id : TransactionId)
  | corruptRecord (kind : RecordKind) (fault : RecordFault)
  | migration (reason : String)
deriving DecidableEq

def StoreError.message : StoreError → String
  | database => "database error"
  | certificate cause => s!"certificate error: {cause.message}"
  | invalidTransaction cause => s!"invalid transaction: {cause.message}"
  | duplicateTransaction id => s!"duplicate transaction {id.text}"
  | missingPrevious transaction previous =>
    s!"transaction {transaction.text} references unknown previous transaction {previous.text}"
  | artifactConflict artifact expected declared =>
    s!"artifact {artifact.text} is at {expected.text}, transaction extends {declared.text}"
  | blockNotFound id => s!"block not found: {id.text}"
  | transactionNotFound id => s!"transaction not found: {id.text}"
  | corruptRecord kind fault => s!"corrupt {kind.name} record: {fault.message}"
  | migration reason => s!"migration error: {reason}"

end SignedLedger
