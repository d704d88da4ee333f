import SignedLedger.Crypto.ChaCha20
import SignedLedger.Crypto.Poly1305

/-! Authenticated encryption: ChaCha20 under a Poly1305 tag of sixteen bytes, which follows the
encrypted data. No further data are authenticated. -/

namespace SignedLedger.Crypto.Sealed

/-- The tag over the encrypted data, zeros up to a multiple of sixteen, and the two sizes. -/
def tag (key : FixedBytes 32) (nonce : FixedBytes 12) (data : Bytes) : Bytes :=
  let oneTimeKey := (ChaCha20.block key nonce 0).take 32
  let zeros := List.replicate ((16 - data.length % 16) % 16) 0
  Poly1305.tag oneTimeKey (data ++ zeros ++ littleEndian 8 0 ++ littleEndian 8 data.length)

def encrypt (key : FixedBytes 32) (nonce : FixedBytes 12) (plain : Bytes) : Bytes :=
  let data := ChaCha20.apply key nonce 1 plain
  data ++ tag key nonce data

/-- Nothing is decrypted unless the tag is the right one. -/
def decrypt? (key : FixedBytes 32) (nonce : FixedBytes 12) (box : Bytes) : Option Bytes :=
  if box.length < 16 then none
  else
    let data := box.take (box.length - 16)
    if box.drop (box.length - 16) = tag key nonce data then some (ChaCha20.apply key nonce 1 data)
    else none

end SignedLedger.Crypto.Sealed
