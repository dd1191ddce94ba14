import DirectoryHistory.Octets

/-!
# The digest behind entry identifiers

BLAKE3 with its default length of 32 octets. The input falls into chunks of 1024 octets, a chunk
into blocks of 64; the chunks are the leaves of a binary tree whose left subtrees are complete.
-/

namespace DirectoryHistory.Digest

def initial : Vector UInt32 8 :=
  #v[0x6a09e667, 0xbb67ae85, 0x3c6ef372, 0xa54ff53a, 0x510e527f, 0x9b05688c, 0x1f83d9ab,
    0x5be0cd19]

def chunkStart : UInt32 := 1
def chunkEnd : UInt32 := 2
def parent : UInt32 := 4
def root : UInt32 := 8

def rotateRight (x n : UInt32) : UInt32 :=
  (x >>> n) ||| (x <<< (32 - n))

def mix (v : Vector UInt32 16) (i j k l : Fin 16) (x y : UInt32) : Vector UInt32 16 :=
  let a := v[i] + v[j] + x
  let d := rotateRight (v[l] ^^^ a) 16
  let c := v[k] + d
  let b := rotateRight (v[j] ^^^ c) 12
  let a := a + b + y
  let d := rotateRight (d ^^^ a) 8
  let c := c + d
  let b := rotateRight (b ^^^ c) 7
  (((v.set i a).set j b).set k c).set l d

def round (v m : Vector UInt32 16) : Vector UInt32 16 :=
  let v := mix v 0 4 8 12 m[0] m[1]
  let v := mix v 1 5 9 13 m[2] m[3]
  let v := mix v 2 6 10 14 m[4] m[5]
  let v := mix v 3 7 11 15 m[6] m[7]
  let v := mix v 0 5 10 15 m[8] m[9]
  let v := mix v 1 6 11 12 m[10] m[11]
  let v := mix v 2 7 8 13 m[12] m[13]
  mix v 3 4 9 14 m[14] m[15]

/-- The order in which a round takes the words of the round before. -/
def permute (m : Vector UInt32 16) : Vector UInt32 16 :=
  #v[m[2], m[6], m[3], m[10], m[7], m[0], m[4], m[13], m[1], m[11], m[12], m[5], m[9], m[14],
    m[15], m[8]]

def rounds : Nat → Vector UInt32 16 → Vector UInt32 16 → Vector UInt32 16
  | 0, v, _ => v
  | n + 1, v, m => rounds n (round v m) (permute m)

/-- A compression that is ready to run: what it yields depends on whether it is the root. -/
structure Node where
  chaining : Vector UInt32 8
  block : Vector UInt32 16
  counter : Nat
  size : Nat
  flags : UInt32

def Node.compress (n : Node) (flags : UInt32) : Vector UInt32 8 :=
  let h := n.chaining
  let state : Vector UInt32 16 :=
    #v[h[0], h[1], h[2], h[3], h[4], h[5], h[6], h[7], initial[0], initial[1], initial[2],
      initial[3], UInt32.ofNat n.counter, UInt32.ofNat (n.counter / UInt32.size), UInt32.ofNat n.size,
      n.flags ||| flags]
  let v := rounds 7 state n.block
  #v[v[0] ^^^ v[8], v[1] ^^^ v[9], v[2] ^^^ v[10], v[3] ^^^ v[11], v[4] ^^^ v[12],
    v[5] ^^^ v[13], v[6] ^^^ v[14], v[7] ^^^ v[15]]

def word (o : Octets) (i : Nat) : UInt32 :=
  (o.getD (4 * i) 0).toUInt32 ||| (o.getD (4 * i + 1) 0).toUInt32 <<< 8 |||
    (o.getD (4 * i + 2) 0).toUInt32 <<< 16 ||| (o.getD (4 * i + 3) 0).toUInt32 <<< 24

def wordOctets (w : UInt32) : Octets :=
  [w.toUInt8, (w >>> 8).toUInt8, (w >>> 16).toUInt8, (w >>> 24).toUInt8]

/-- Pieces of `size` octets; the last one may be short, and the empty input is one empty piece. -/
def pieces (size : Nat) (o : Octets) : List Octets :=
  if size = 0 ∨ o.length ≤ size then [o]
  else o.take size :: pieces size (o.drop size)
termination_by o.length
decreasing_by simp only [List.length_drop]; omega

def chunkFrom (counter : Nat) (chaining : Vector UInt32 8) (flags : UInt32) :
    List Octets → Node
  | [] => ⟨chaining, Vector.ofFn fun _ => 0, counter, 0, flags ||| chunkEnd⟩
  | [last] => ⟨chaining, Vector.ofFn fun i => word last i, counter, last.length, flags ||| chunkEnd⟩
  | block :: rest =>
    let node : Node := ⟨chaining, Vector.ofFn fun i => word block i, counter, block.length, flags⟩
    chunkFrom counter (node.compress 0) 0 rest

def chunk (counter : Nat) (o : Octets) : Node :=
  chunkFrom counter initial chunkStart (pieces 64 o)

def join (left right : Node) : Node :=
  ⟨initial, (left.compress 0 ++ right.compress 0 : Vector UInt32 (8 + 8)), 0, 64, parent⟩

/-- The tree over the chunks that begin with number `first`. -/
def tree (first : Nat) : List Octets → Node
  | [] => chunk first []
  | [o] => chunk first o
  | o :: p :: rest =>
    let left := 1 <<< (rest.length + 1).log2
    join (tree first ((o :: p :: rest).take left))
      (tree (first + left) ((o :: p :: rest).drop left))
termination_by chunks => chunks.length
decreasing_by
  · have := Nat.log2_self_le (n := rest.length + 1) (by omega)
    simp only [List.length_take, List.length_cons]
    omega
  · have := Nat.two_pow_pos (rest.length + 1).log2
    simp only [List.length_drop, List.length_cons]
    omega

def digest (o : Octets) : Octets :=
  ((tree 0 (pieces 1024 o)).compress root).toList.flatMap wordOctets

theorem length_digest (o : Octets) : (digest o).length = 32 := by
  simp [digest, List.length_flatMap, wordOctets, List.map_const']

end DirectoryHistory.Digest
