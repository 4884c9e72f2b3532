import ShardedQuery.Hash.Murmur3

/-!
# A seeded stream of random words

The stream is the key stream of ChaCha with eight rounds, a block counter of 64 bits and no nonce;
the key is spread out of a small seed by a linear congruential generator.

* `ChaCha.block key counter` — the sixteen words of one block.
* `RandomStream` — a key and a position in its stream; `nextWord` and `nextLong` read on from it.
* `RandomStream.below n` — a number below `n`, each equally likely: a draw is scaled by `n` and its
  upper half taken, and draws whose lower half would favour some results are put back.
-/

namespace ShardedQuery

namespace ChaCha

/-- The sixteen words that the rounds work on. -/
abbrev Block := Vector UInt32 16

/-- Mixes four words of the block. -/
def quarterRound (s : Block) (a b c d : Fin 16) : Block :=
  let s := s.set a (s[a] + s[b])
  let s := s.set d (rotateLeft (s[d] ^^^ s[a]) 16)
  let s := s.set c (s[c] + s[d])
  let s := s.set b (rotateLeft (s[b] ^^^ s[c]) 12)
  let s := s.set a (s[a] + s[b])
  let s := s.set d (rotateLeft (s[d] ^^^ s[a]) 8)
  let s := s.set c (s[c] + s[d])
  s.set b (rotateLeft (s[b] ^^^ s[c]) 7)

/-- One round over the columns of the block and one over its diagonals. -/
def doubleRound (s : Block) : Block :=
  let s := quarterRound s 0 4 8 12
  let s := quarterRound s 1 5 9 13
  let s := quarterRound s 2 6 10 14
  let s := quarterRound s 3 7 11 15
  let s := quarterRound s 0 5 10 15
  let s := quarterRound s 1 6 11 12
  let s := quarterRound s 2 7 8 13
  quarterRound s 3 4 9 14

def rounds : Nat → Block → Block
  | 0, s => s
  | n + 1, s => rounds n (doubleRound s)

/-- The block with this counter in the key stream of the key. -/
def block (key : Vector UInt32 8) (counter : UInt64) : Block :=
  let start : Block :=
    #v[0x61707865, 0x3320646E, 0x79622D32, 0x6B206574,
      key[0], key[1], key[2], key[3], key[4], key[5], key[6], key[7],
      counter.toUInt32, (counter >>> 32).toUInt32, 0, 0]
  Vector.zipWith (· + ·) (rounds 4 start) start

end ChaCha

/-- A position in the key stream of a key, counted in words. -/
structure RandomStream where
  key : Vector UInt32 8
  position : Nat
deriving DecidableEq

namespace RandomStream

/-- One step of the generator that spreads a seed. -/
def spread (state : UInt64) : UInt64 := state * 6364136223846793005 + 11634580027462260723

/-- The key word for a state of that generator: its upper bits folded down and rotated right by
its top five. -/
def keyWord (state : UInt64) : UInt32 :=
  let folded := (((state >>> 18) ^^^ state) >>> 27).toUInt32
  let turn : UInt32 := (state >>> 59).toUInt32
  rotateLeft folded (32 - turn)

def ofSeed (seed : UInt64) : RandomStream :=
  let s0 := spread seed
  let s1 := spread s0
  let s2 := spread s1
  let s3 := spread s2
  let s4 := spread s3
  let s5 := spread s4
  let s6 := spread s5
  let s7 := spread s6
  { key := #v[keyWord s0, keyWord s1, keyWord s2, keyWord s3, keyWord s4, keyWord s5, keyWord s6,
      keyWord s7]
    position := 0 }

def nextWord (r : RandomStream) : UInt32 × RandomStream :=
  let words := ChaCha.block r.key (UInt64.ofNat (r.position / 16))
  (words.get ⟨r.position % 16, Nat.mod_lt _ (by decide)⟩, { r with position := r.position + 1 })

/-- The next two words as one number, the first of them its lower half. -/
def nextLong (r : RandomStream) : UInt64 × RandomStream :=
  let (low, r) := r.nextWord
  let (high, r) := r.nextWord
  (low.toUInt64 ||| (high.toUInt64 <<< 32), r)

/-- The draws that are kept: those whose product with `n` has a lower half of at most this.  It is
one less than the largest multiple `n * 2 ^ k` that still fits 64 bits. -/
def zone (n : Nat) : Nat := n <<< (63 - n.log2) - 1

/-- A number below `n`, from the first kept draw of the next `draws + 1`, or from the last of these
if none is kept.  At least half of all draws are kept. -/
def belowWithin (n : Nat) : Nat → RandomStream → Nat × RandomStream
  | 0, r =>
    let (v, r) := r.nextLong
    (v.toNat * n / UInt64.size, r)
  | draws + 1, r =>
    let (v, next) := r.nextLong
    if v.toNat * n % UInt64.size ≤ zone n then (v.toNat * n / UInt64.size, next)
    else belowWithin n draws next

/-- A number below `n`, for a positive `n`. -/
def below (n : Nat) (r : RandomStream) : Nat × RandomStream := belowWithin n 511 r

end RandomStream

end ShardedQuery
