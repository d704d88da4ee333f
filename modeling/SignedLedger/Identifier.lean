import SignedLedger.Bytes

/-! Identifiers of sixteen bytes. The kind is part of the type, so that a block identifier never
stands where a transaction identifier is meant. The zero identifier means that there is none. -/

namespace SignedLedger

inductive Identifier.Kind where
  | block
  | transaction
  | artifact
  | entity
deriving DecidableEq

structure Identifier (kind : Identifier.Kind) where
  value : FixedBytes 16
deriving DecidableEq

abbrev BlockId := Identifier .block
abbrev TransactionId := Identifier .transaction
abbrev ArtifactId := Identifier .artifact
abbrev EntityId := Identifier .entity

namespace Identifier

variable {kind : Kind}

def bytes (i : Identifier kind) : Bytes :=
  i.value.toList

@[simp] theorem length_bytes (i : Identifier kind) : i.bytes.length = 16 :=
  i.value.length_toList

theorem bytes_inj {i j : Identifier kind} : i.bytes = j.bytes ↔ i = j := by
  constructor
  · intro h
    cases i
    cases j
    exact congrArg Identifier.mk (FixedBytes.ext h)
  · rintro rfl
    rfl

def ofBytes? (b : Bytes) : Option (Identifier kind) :=
  (FixedBytes.ofList? 16 b).map Identifier.mk

@[simp] theorem ofBytes?_bytes (i : Identifier kind) : ofBytes? i.bytes = some i := by
  simp [ofBytes?, bytes]

theorem ofBytes?_eq_some_iff {b : Bytes} {i : Identifier kind} : ofBytes? b = some i ↔ b = i.bytes := by
  constructor
  · intro h
    obtain ⟨v, hv, rfl⟩ := Option.map_eq_some_iff.mp h
    exact FixedBytes.ofList?_eq_some_iff.mp hv
  · rintro rfl
    exact ofBytes?_bytes i

def nil : Identifier kind :=
  ⟨.zero 16⟩

def isNil (i : Identifier kind) : Bool :=
  i == nil

/-- The identifier itself, unless it is zero. -/
def nonNil? (i : Identifier kind) : Option (Identifier kind) :=
  if i = nil then none else some i

/-- The block at height zero, one and the same in every ledger. -/
def root : BlockId :=
  ⟨.ofNat 16 1⟩

instance : LE (Identifier kind) :=
  ⟨fun i j => i.bytes ≤ j.bytes⟩

instance (i j : Identifier kind) : Decidable (i ≤ j) :=
  inferInstanceAs (Decidable (i.bytes ≤ j.bytes))

def hex (i : Identifier kind) : String :=
  SignedLedger.hex i.bytes

/-- Five groups of lower case digits joined by hyphens. -/
def text (i : Identifier kind) : String :=
  let group (start size : Nat) := SignedLedger.hex ((i.bytes.drop start).take size)
  "-".intercalate [group 0 4, group 4 2, group 6 2, group 8 2, group 10 6]

def Kind.name : Kind → String
  | block => "BlockId"
  | transaction => "TransactionId"
  | artifact => "ArtifactId"
  | entity => "EntityId"

def debugText (i : Identifier kind) : String :=
  s!"{kind.name}({i.text})"

/-- Thirty-two digits without hyphens. -/
def ofDigits? (digits : List Char) : Option (Identifier kind) :=
  (ofHex? digits).bind ofBytes?

def ofGroups? (chars : List Char) : Option (Identifier kind) :=
  if [8, 13, 18, 23].all (fun k => chars[k]? == some '-') then
    let group (start size : Nat) := (chars.drop start).take size
    ofDigits? (group 0 8 ++ group 9 4 ++ group 14 4 ++ group 19 4 ++ chars.drop 24)
  else none

/-- The written forms: plain digits, hyphenated groups, groups in braces, and groups after the
resource name. Digits and the letters of the resource name have either case. -/
def parse? (s : String) : Option (Identifier kind) :=
  let chars := s.toList
  match chars.length with
  | 32 => ofDigits? chars
  | 36 => ofGroups? chars
  | 38 =>
    if chars.head? = some '\x7b' ∧ chars.getLast? = some '\x7d' then ofGroups? ((chars.drop 1).take 36)
    else none
  | 45 => if (chars.take 9).map Char.toLower = "urn:uuid:".toList then ofGroups? (chars.drop 9) else none
  | _ => none

end Identifier

end SignedLedger
