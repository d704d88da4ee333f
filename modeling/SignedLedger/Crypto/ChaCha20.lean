import SignedLedger.Crypto.LittleEndian

/-! The ChaCha20 stream cipher with a 96 bit nonce and a 32 bit block counter. -/

namespace SignedLedger.Crypto.ChaCha20

def rotateLeft (x n : UInt32) : UInt32 :=
  x <<< n ||| x >>> (32 - n)

def quarter (s : Vector UInt32 16) (a b c d : Fin 16) : Vector UInt32 16 :=
  let wa := s.get a + s.get b
  let wd := rotateLeft (s.get d ^^^ wa) 16
  let wc := s.get c + wd
  let wb := rotateLeft (s.get b ^^^ wc) 12
  let wa := wa + wb
  let wd := rotateLeft (wd ^^^ wa) 8
  let wc := wc + wd
  let wb := rotateLeft (wb ^^^ wc) 7
  put (put (put (put s a wa) b wb) c wc) d wd

def doubleRound (s : Vector UInt32 16) : Vector UInt32 16 :=
  let s := quarter s 0 4 8 12
  let s := quarter s 1 5 9 13
  let s := quarter s 2 6 10 14
  let s := quarter s 3 7 11 15
  let s := quarter s 0 5 10 15
  let s := quarter s 1 6 11 12
  let s := quarter s 2 7 8 13
  quarter s 3 4 9 14

def block (key : FixedBytes 32) (nonce : FixedBytes 12) (counter : UInt32) : Bytes :=
  let k := key.toList.toArray
  let n := nonce.toList.toArray
  let s : Vector UInt32 16 :=
    #v[0x61707865, 0x3320646e, 0x79622d32, 0x6b206574,
      word32 k 0, word32 k 1, word32 k 2, word32 k 3, word32 k 4, word32 k 5, word32 k 6, word32 k 7,
      counter, word32 n 0, word32 n 1, word32 n 2]
  let t := (List.range 10).foldl (fun t _ => doubleRound t) s
  (bytes32 (Vector.ofFn fun i : Fin 16 => s.get i + t.get i)).toList

/-- Adds the key stream from block `start` on. Applied twice it gives the data back. -/
def apply (key : FixedBytes 32) (nonce : FixedBytes 12) (start : Nat) (data : Bytes) : Bytes :=
  (pieces 64 data).zipIdx.flatMap fun (piece, i) =>
    List.zipWith (· ^^^ ·) piece (block key nonce (UInt32.ofNat (start + i)))

end SignedLedger.Crypto.ChaCha20
