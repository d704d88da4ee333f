import SignedLedger.Trust.Resolver

/-! Simple contracts on the visible part of a certificate. -/

namespace SignedLedger.Contract

def accept : Contract :=
  fun _ => .ok ()

def reject (reason : String) : Contract :=
  fun _ => .error reason

/-- The first field with tag `t` is there and not empty. -/
def requireField (t : Tag) : Contract := fun c =>
  match c.field t with
  | .ok (some f) => if f.value = [] then .error s!"empty {t.text}" else .ok ()
  | _ => .error s!"missing {t.text}"

def maxSize (limit : Nat) : Contract := fun c =>
  if limit < c.visible then .error s!"{c.visible} bytes exceed {limit}" else .ok ()

end SignedLedger.Contract
