import SignedLedger.Crypto.LittleEndian

/-! The BLAKE3 hash. The input is cut into chunks of 1024 bytes, which are the leaves of a binary
tree whose left subtrees are complete. The hash is the output of the root node. -/

namespace SignedLedger.Crypto.Blake3

def initialWords : Vector UInt32 8 :=
  #v[0x6a09e667, 0xbb67ae85, 0x3c6ef372, 0xa54ff53a, 0x510e527f, 0x9b05688c, 0x1f83d9ab, 0x5be0cd19]

def schedule : Vector (Fin 16) 16 :=
  #v[2, 6, 3, 10, 7, 0, 4, 13, 1, 11, 12, 5, 9, 14, 15, 8]

def chunkStart : UInt32 := 1
def chunkEnd : UInt32 := 2
def parent : UInt32 := 4
def root : UInt32 := 8
def keyContext : UInt32 := 32
def keyMaterial : UInt32 := 64

def rotateRight (x n : UInt32) : UInt32 :=
  x >>> n ||| x <<< (32 - n)

def mix (s : Vector UInt32 16) (a b c d : Fin 16) (x y : UInt32) : Vector UInt32 16 :=
  let wa := s.get a + s.get b + x
  let wd := rotateRight (s.get d ^^^ wa) 16
  let wc := s.get c + wd
  let wb := rotateRight (s.get b ^^^ wc) 12
  let wa := wa + wb + y
  let wd := rotateRight (wd ^^^ wa) 8
  let wc := wc + wd
  let wb := rotateRight (wb ^^^ wc) 7
  put (put (put (put s a wa) b wb) c wc) d wd

/-- Columns first, then diagonals. -/
def round (s m : Vector UInt32 16) : Vector UInt32 16 :=
  let s := mix s 0 4 8 12 (m.get 0) (m.get 1)
  let s := mix s 1 5 9 13 (m.get 2) (m.get 3)
  let s := mix s 2 6 10 14 (m.get 4) (m.get 5)
  let s := mix s 3 7 11 15 (m.get 6) (m.get 7)
  let s := mix s 0 5 10 15 (m.get 8) (m.get 9)
  let s := mix s 1 6 11 12 (m.get 10) (m.get 11)
  let s := mix s 2 7 8 13 (m.get 12) (m.get 13)
  mix s 3 4 9 14 (m.get 14) (m.get 15)

def rounds : Nat → Vector UInt32 16 → Vector UInt32 16 → Vector UInt32 16
  | 0, s, _ => s
  | n + 1, s, m => rounds n (round s m) (schedule.map m.get)

/-- What a node of the tree feeds to its last compression. -/
structure Node where
  chaining : Vector UInt32 8
  words : Vector UInt32 16
  counter : UInt64
  size : UInt32
  flags : UInt32

def compress (n : Node) : Vector UInt32 8 :=
  let h := n.chaining
  let v := initialWords
  let s := rounds 7
    #v[h[0], h[1], h[2], h[3], h[4], h[5], h[6], h[7], v[0], v[1], v[2], v[3],
      n.counter.toUInt32, (n.counter >>> 32).toUInt32, n.size, n.flags]
    n.words
  Vector.ofFn fun i : Fin 8 => s.get ⟨i.val, by omega⟩ ^^^ s.get ⟨i.val + 8, by omega⟩

def blockWords (block : Bytes) : Vector UInt32 16 :=
  let b := block.toArray
  Vector.ofFn fun i : Fin 16 => word32 b i.val

def chunkNode (key : Vector UInt32 8) (flags : UInt32) (counter : UInt64) (chunk : Bytes) : Node :=
  go key chunkStart (pieces 64 chunk)
where
  go (chaining : Vector UInt32 8) (start : UInt32) : List Bytes → Node
    | [] => ⟨chaining, blockWords [], counter, 0, flags ||| start ||| chunkEnd⟩
    | [last] => ⟨chaining, blockWords last, counter, UInt32.ofNat last.length, flags ||| start ||| chunkEnd⟩
    | block :: rest => go (compress ⟨chaining, blockWords block, counter, 64, flags ||| start⟩) 0 rest

def parentNode (key : Vector UInt32 8) (flags : UInt32) (left right : Node) : Node :=
  ⟨key, (compress left ++ compress right), 0, 64, flags ||| parent⟩

/-- The greatest power of two below `n`, for `n` from 2 up. -/
def leftSize (n : Nat) : Nat :=
  2 ^ (n - 1).log2

theorem leftSize_lt {n : Nat} (h : 1 < n) : 0 < leftSize n ∧ leftSize n < n := by
  have hp : 0 < leftSize n := Nat.pow_pos (by decide)
  have hl : leftSize n ≤ n - 1 := Nat.log2_self_le (by omega)
  omega

def tree (key : Vector UInt32 8) (flags : UInt32) (leaves : List Node) : Node :=
  match leaves with
  | [] => chunkNode key flags 0 []
  | [leaf] => leaf
  | a :: b :: rest =>
    let all := a :: b :: rest
    let k := leftSize all.length
    parentNode key flags (tree key flags (all.take k)) (tree key flags (all.drop k))
termination_by leaves.length
decreasing_by
  all_goals
    have h := leftSize_lt (n := (a :: b :: rest).length) (by simp)
    simp only [List.length_take, List.length_drop]
    omega

def hashWith (key : Vector UInt32 8) (flags : UInt32) (input : Bytes) : Vector UInt32 8 :=
  let leaves := (pieces 1024 input).zipIdx.map fun (chunk, i) => chunkNode key flags (UInt64.ofNat i) chunk
  let top := tree key flags leaves
  compress { top with counter := 0, flags := top.flags ||| root }

def hash (input : Bytes) : FixedBytes 32 :=
  bytes32 (hashWith initialWords 0 input)

/-- The key derivation mode: the hash of the context keys the hash of the material. -/
def deriveKey (context material : Bytes) : FixedBytes 32 :=
  bytes32 (hashWith (hashWith initialWords keyContext context) keyMaterial material)

end SignedLedger.Crypto.Blake3
