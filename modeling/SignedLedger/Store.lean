import SignedLedger.Store.Append

/-! Stores: tables and the signer of their blocks. Every operation is one transaction on the tables; an
operation that fails leaves them as they were. -/

namespace SignedLedger

structure Store where
  signer : BlockSigner
  tables : Tables

namespace Store

def start (signer : BlockSigner) : Store :=
  ⟨signer, .empty⟩

def suite (s : Store) : Suite :=
  s.signer.suite

/-- Commits the tables of a transaction that succeeds. -/
def write {α : Type} (s : Store) (body : Tables → Except StoreError (α × Tables)) : Except StoreError α × Store :=
  match body s.tables with
  | .ok (a, t) => (.ok a, { s with tables := t })
  | .error e => (.error e, s)

/-- Appends a block that wraps the pending transactions. The identifier is the caller's choice and has
to be fresh. -/
def append (s : Store) (fresh : BlockId) (now : UInt64) (pending : List Certificate) : Except StoreError Block × Store :=
  s.write (Tables.append s.signer fresh now pending)

def ensureRoot (s : Store) (now : UInt64) : Except StoreError Block × Store :=
  s.write (Tables.ensureRoot s.signer now)

end Store

end SignedLedger
