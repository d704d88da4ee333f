import SignedLedger.Store.Overlay
import SignedLedger.Store.Error

/-! Engines. A transaction either commits all of its writes or none. What is kept in memory stages its
writes in an overlay; a database writes at once and rolls back. Only a database in a file outlives
being opened again. -/

namespace SignedLedger

inductive Medium where
  | memory
  | database
  | file
deriving DecidableEq

structure Engine where
  medium : Medium
  tables : Tables

namespace Engine

def start (m : Medium) : Engine :=
  ⟨m, .empty⟩

/-- Carries out a transaction that ends with `outcome`, and commits where this is not an error. -/
def write (e : Engine) (requests : List Request) (outcome : Except StoreError Unit) : List Reply × Engine :=
  match e.medium with
  | .memory =>
    let (replies, o) := answerAll Overlay.answer (.start e.tables) requests
    match outcome with
    | .ok () => (replies, { e with tables := o.commit })
    | .error _ => (replies, e)
  | .database | .file =>
    let (replies, t) := answerAll Tables.answer e.tables requests
    match outcome with
    | .ok () => (replies, { e with tables := t })
    | .error _ => (replies, e)

/-- Opens the engine again. -/
def reopen (e : Engine) : Engine :=
  match e.medium with
  | .memory | .database => start e.medium
  | .file => e

end Engine

end SignedLedger
