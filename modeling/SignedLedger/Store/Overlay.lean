import SignedLedger.Store.Table

/-! Writing beside the committed tables. A write is staged; a deletion is staged as the absence of a
value. What is read is the staged write over the committed state, and only committing changes the
tables. -/

namespace SignedLedger

structure Overlay where
  base : Tables
  staged : PerTable (KeyMap (Option Bytes))

namespace Overlay

def start (base : Tables) : Overlay :=
  ⟨base, .const .empty⟩

def get? (o : Overlay) (table : Table) (key : Bytes) : Option Bytes :=
  match (o.staged.get table).get? key with
  | some written => written
  | none => o.base.get? table key

/-- Puts staged writes over a map. -/
def apply (m : KeyMap Bytes) (writes : List (Bytes × Option Bytes)) : KeyMap Bytes :=
  writes.foldl (fun m (key, written) =>
    match written with
    | some value => m.insert key value
    | none => m.erase key) m

/-- The committed entries of the range with the staged writes of the range over them. -/
def range (o : Overlay) (table : Table) (start : Bytes) (stop : Option Bytes) : List (Bytes × Bytes) :=
  (apply ((o.base.get table).range start stop) ((o.staged.get table).range start stop).entries).entries

def stage (o : Overlay) (table : Table) (key : Bytes) (written : Option Bytes) : Overlay :=
  { o with staged := o.staged.set table ((o.staged.get table).insert key written) }

def answer (o : Overlay) : Request → Reply × Overlay
  | .get table key => (.value (o.get? table key), o)
  | .range table start stop => (.entries (o.range table start stop), o)
  | .put table key value => (.stored, o.stage table key (some value))
  | .delete table key => (.existed (o.get? table key).isSome, o.stage table key none)

def commit (o : Overlay) : Tables :=
  Table.all.foldl (fun t table => t.set table (apply (t.get table) (o.staged.get table).entries)) o.base

end Overlay

end SignedLedger
