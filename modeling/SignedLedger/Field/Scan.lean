import SignedLedger.Field

/-! The fields of a range in order. A scan stops at the end of the range or after its first error.
A search for the first field of a tag ends where it finds one, and so does not see a later error;
a search for all fields of a tag reads the whole range. -/

namespace SignedLedger.Field

/-- The fields of `bytes`, whose first byte is at `offset`. An error is the last item. -/
def scanFrom (w : HeaderWidth) (offset : Nat) (bytes : Bytes) : List (Except CodecError Field) :=
  if bytes = [] then []
  else
    match _ : takeFirst w offset bytes with
    | .error e => [.error e]
    | .ok (f, rest) => .ok f :: scanFrom w f.stop rest
termination_by bytes.length
decreasing_by exact length_lt_of_takeFirst ‹_›

def scan (w : HeaderWidth) (buffer : Bytes) (start stop : Nat) : List (Except CodecError Field) :=
  scanFrom w start (range buffer start stop)

def findFirstFrom (t : Tag) (offset : Nat) (bytes : Bytes) : Except CodecError (Option Field) :=
  if bytes = [] then .ok none
  else
    match _ : takeFirst .short offset bytes with
    | .error e => .error e
    | .ok (f, rest) => if f.tag = t then .ok (some f) else findFirstFrom t f.stop rest
termination_by bytes.length
decreasing_by exact length_lt_of_takeFirst ‹_›

def findFirst (buffer : Bytes) (stop : Nat) (t : Tag) : Except CodecError (Option Field) :=
  findFirstFrom t 0 (range buffer 0 stop)

def findAllFrom (t : Tag) (offset : Nat) (bytes : Bytes) : Except CodecError (List Field) :=
  if bytes = [] then .ok []
  else
    match _ : takeFirst .short offset bytes with
    | .error e => .error e
    | .ok (f, rest) => do
      let found ← findAllFrom t f.stop rest
      pure (if f.tag = t then f :: found else found)
termination_by bytes.length
decreasing_by exact length_lt_of_takeFirst ‹_›

def findAll (buffer : Bytes) (stop : Nat) (t : Tag) : Except CodecError (List Field) :=
  findAllFrom t 0 (range buffer 0 stop)

/-- The error that ends a scan, if one does. -/
def scanError? : List (Except CodecError Field) → Option CodecError
  | [] => none
  | .error e :: _ => some e
  | .ok _ :: rest => scanError? rest

end SignedLedger.Field
