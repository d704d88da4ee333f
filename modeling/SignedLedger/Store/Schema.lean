import SignedLedger.Store.Table
import SignedLedger.Store.Error

/-! The schema of a database: the tables that exist, and the versions that were applied to it. -/

namespace SignedLedger

structure Schema where
  /-- The applied versions in order, once there is a table for them. -/
  versions : Option (List Int) := none
  /-- Whether the tables of the ledger exist. -/
  hasTables : Bool := false
deriving DecidableEq

namespace Schema

def supported : Nat := 1

def tableNames (s : Schema) : List String :=
  let ledger := if s.hasTables then Table.all.map Table.name else []
  let own := if s.versions.isSome then ["schema_migrations"] else []
  (ledger ++ own).mergeSort fun a b => decide (a ≤ b)

def addVersion (v : Int) (versions : List Int) : List Int :=
  (v :: versions).mergeSort fun a b => decide (a ≤ b)

/-- Records a version. The table of versions has to exist and must not hold the version. -/
def insert (s : Schema) (v : Int) : Except StoreError Unit × Schema :=
  match s.versions with
  | none => (.error .database, s)
  | some versions =>
    if v ∈ versions then (.error .database, s)
    else (.ok (), { s with versions := some (addVersion v versions) })

/-- The greatest version, zero where there is none. It has to fit 32 bits. -/
def current (versions : List Int) : Except StoreError Nat :=
  let v := (versions.max?).getD 0
  if 0 ≤ v ∧ v < 2 ^ 32 then .ok v.toNat else .error .database

/-- Brings the schema up to the supported version. The table of versions is created in any case. -/
def migrate (s : Schema) : Except StoreError Unit × Schema :=
  let versions := s.versions.getD []
  let s := { s with versions := some versions }
  match current versions with
  | .error e => (.error e, s)
  | .ok found =>
    if supported < found then
      (.error (.migration s!"database schema version {found} is newer than supported version {supported}"), s)
    else if found < supported then
      if s.hasTables then (.error .database, s)
      else (.ok (), { versions := some (addVersion supported versions), hasTables := true })
    else (.ok (), s)

end Schema

end SignedLedger
