import SignedLedger.Crypto.LittleEndian

/-! The Poly1305 one time authenticator. -/

namespace SignedLedger.Crypto.Poly1305

def modulus : Nat := 2 ^ 130 - 5

def clampMask : Nat := 0x0ffffffc0ffffffc0ffffffc0fffffff

/-- A piece counts as its number with a one bit above its highest byte. -/
def pieceValue (piece : Bytes) : Nat :=
  ofLittleEndian piece + 2 ^ (8 * piece.length)

def tag (key : Bytes) (message : Bytes) : Bytes :=
  let r := ofLittleEndian (key.take 16) &&& clampMask
  let s := ofLittleEndian ((key.drop 16).take 16)
  let blocks := if message = [] then [] else pieces 16 message
  let sum := blocks.foldl (fun a piece => (a + pieceValue piece) * r % modulus) 0
  littleEndian 16 (sum + s)

end SignedLedger.Crypto.Poly1305
