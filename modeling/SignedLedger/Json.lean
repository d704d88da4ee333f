import SignedLedger.Suite
import SignedLedger.Certificate

/-! The JSON texts of identifiers, digests and tags. An identifier is a string with the written form
of the identifier, a digest an array of its 32 bytes, a tag a whole number. A reader takes a value off
the front of the characters and hands back the rest; a document is one value and nothing else. -/

namespace SignedLedger

namespace Json

abbrev Reader (α : Type) := List Char → Option (α × List Char)

def isBlank (c : Char) : Bool :=
  c = ' ' || c = '\t' || c = '\n' || c = '\r'

def skipBlanks (chars : List Char) : List Char :=
  chars.dropWhile isBlank

def document? {α : Type} (value : Reader α) (text : String) : Option α := do
  let (a, rest) ← value (skipBlanks text.toList)
  if skipBlanks rest = [] then some a else none

/-- A whole number: no sign, no leading zero. A fraction or an exponent is left in the rest, where
nothing accepts it. -/
def number : Reader Nat := fun chars =>
  let digits := chars.takeWhile Char.isDigit
  let rest := chars.dropWhile Char.isDigit
  if digits = [] || (digits.head? == some '0' && digits.length != 1) then none
  else some (digits.foldl (fun n c => 10 * n + (c.toNat - '0'.toNat)) 0, rest)

def numberBelow (limit : Nat) : Reader Nat := fun chars => do
  let (n, rest) ← number chars
  if n < limit then some (n, rest) else none

def hexUnit? (chars : List Char) : Option Nat :=
  chars.foldlM (fun n c => (hexDigit? c).map (16 * n + ·)) 0

/-- The character that a letter after a backslash stands for. -/
def escaped? : Char → Option Char
  | '"' => some '"'
  | '\\' => some '\\'
  | '/' => some '/'
  | 'b' => some '\x08'
  | 'f' => some '\x0c'
  | 'n' => some '\n'
  | 'r' => some '\r'
  | 't' => some '\t'
  | _ => none

/-- A scalar value from one unit of sixteen bits, or from a pair of them that stands for a character
outside the basic plane. The second component counts the characters that were used. -/
def unicode? (chars : List Char) : Option (Char × Nat) := do
  let unit (k : Nat) : Option Nat :=
    let digits := (chars.drop k).take 4
    if digits.length = 4 then hexUnit? digits else none
  let high ← unit 0
  if high < 0xd800 ∨ 0xe000 ≤ high then some (Char.ofNat high, 4)
  else if high < 0xdc00 ∧ (chars.drop 4).take 2 = ['\\', 'u'] then
    let low ← unit 6
    if 0xdc00 ≤ low ∧ low < 0xe000 then
      some (Char.ofNat (0x10000 + (high - 0xd800) * 0x400 + (low - 0xdc00)), 10)
    else none
  else none

def stringBody : Reader (List Char)
  | [] => none
  | '"' :: rest => some ([], rest)
  | '\\' :: 'u' :: rest =>
    match unicode? rest with
    | none => none
    | some (c, used) => (stringBody (rest.drop used)).map fun (cs, tail) => (c :: cs, tail)
  | '\\' :: e :: rest =>
    match escaped? e with
    | none => none
    | some c => (stringBody rest).map fun (cs, tail) => (c :: cs, tail)
  | c :: rest =>
    if c = '\\' ∨ c < ' ' then none
    else (stringBody rest).map fun (cs, tail) => (c :: cs, tail)
termination_by chars => chars.length
decreasing_by all_goals simp only [List.length_cons, List.length_drop]; omega

def string : Reader String
  | '"' :: rest => (stringBody rest).map fun (cs, tail) => (String.ofList cs, tail)
  | _ => none

/-- Items separated by commas, exactly `n` of them, up to the closing bracket. -/
def items {α : Type} (item : Reader α) : (n : Nat) → Reader (List α)
  | 0, _ => none
  | n + 1, chars => do
    let (a, rest) ← item (skipBlanks chars)
    match n, skipBlanks rest with
    | 0, ']' :: tail => some ([a], tail)
    | m + 1, ',' :: tail => do
      let (others, tail) ← items item (m + 1) tail
      some (a :: others, tail)
    | _, _ => none

def array {α : Type} (item : Reader α) (n : Nat) : Reader (List α)
  | '[' :: rest => items item n rest
  | _ => none

end Json

namespace Identifier

variable {kind : Kind}

def toJson (i : Identifier kind) : String :=
  "\"" ++ i.text ++ "\""

def ofJson? (text : String) : Option (Identifier kind) :=
  (Json.document? Json.string text).bind parse?

end Identifier

def Digest.toJson (d : Digest) : String :=
  "[" ++ ",".intercalate (d.toList.map fun x => toString x.toNat) ++ "]"

def Digest.ofJson? (text : String) : Option Digest := do
  let numbers ← Json.document? (Json.array (Json.numberBelow 256) 32) text
  FixedBytes.ofList? 32 (numbers.map UInt8.ofNat)

def Tag.toJson (t : Tag) : String :=
  toString t.number.toNat

def Tag.ofJson? (text : String) : Option Tag :=
  (Json.document? (Json.numberBelow (2 ^ 16)) text).map fun n => ⟨UInt16.ofNat n⟩

def CertificateType.toJson (t : CertificateType) : String :=
  toString t.number.toNat

def CertificateType.ofJson? (text : String) : Option CertificateType :=
  (Json.document? (Json.numberBelow (2 ^ 16)) text).map fun n => ⟨UInt16.ofNat n⟩

end SignedLedger
