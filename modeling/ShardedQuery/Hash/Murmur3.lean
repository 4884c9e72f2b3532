/-!
# Murmur3, the 32 bit variant

The hash of a byte string: each group of four bytes, read low byte first, is scrambled and mixed
into the state; a last group of one to three bytes is scrambled and only added; the length is added
at the end and the bits are spread.

* `Murmur3.hash seed bytes` — the hash with a start state.
* `Murmur3.scramble`, `Murmur3.absorb`, `Murmur3.finish` — its three kinds of step, each of them a
  bijection in the state and, where there is one, in the group.
-/

namespace ShardedQuery

/-- The word with its bits moved left by `k`, those that leave at the top entering at the bottom.
Shifts take their amount modulo the width, so a rotation by 0 or by 32 leaves the word as it is. -/
def rotateLeft (w : UInt32) (k : UInt32) : UInt32 := (w <<< k) ||| (w >>> (32 - k))

namespace Murmur3

/-- The word whose bytes are given, low byte first; missing bytes are zero. -/
def wordOfBytes : List UInt8 → UInt32
  | [] => 0
  | b :: rest => b.toUInt32 ||| (wordOfBytes rest <<< 8)

/-- Spreads the bits of one group before it meets the state. -/
def scramble (k : UInt32) : UInt32 := rotateLeft (k * 0xCC9E2D51) 15 * 0x1B873593

/-- Mixes a full group into the state. -/
def absorb (h k : UInt32) : UInt32 := rotateLeft (h ^^^ scramble k) 13 * 5 + 0xE6546B64

/-- Spreads the bits of the last state. -/
def finish (h : UInt32) : UInt32 :=
  let h := (h ^^^ (h >>> 16)) * 0x85EBCA6B
  let h := (h ^^^ (h >>> 13)) * 0xC2B2AE35
  h ^^^ (h >>> 16)

/-- The state after all bytes: full groups are absorbed, a partial last one is only added. -/
def absorbAll (h : UInt32) : List UInt8 → UInt32
  | a :: b :: c :: d :: rest => absorbAll (absorb h (wordOfBytes [a, b, c, d])) rest
  | [] => h
  | tail => h ^^^ scramble (wordOfBytes tail)

def hash (seed : UInt32) (bytes : List UInt8) : UInt32 :=
  finish (absorbAll seed bytes ^^^ UInt32.ofNat bytes.length)

end Murmur3

end ShardedQuery
