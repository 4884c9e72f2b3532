import ShardedQuery.Hash.Murmur3

/-!
# Hashes of routing values

A routing value is hashed over its UTF-16 code units.  A character below `0x10000` is one unit; a
larger one is two, its upper ten bits above the high surrogate base and its lower ten bits above the
low one.

* `Text.codeUnits s` — the code units of a string in order.
* `Text.littleEndian units` — those units as bytes, the low byte of each first.

There are two functions:

* `RoutingHash.murmur3` — Murmur3 with seed zero over the units as bytes, low byte first;
* `RoutingHash.djb` — from 5381, thirty-three times the state plus the unit, in 64 bit arithmetic
  that is cut to 32 bits at the end.
-/

namespace ShardedQuery

namespace Text

def unitsOfChar (c : Char) : List UInt16 :=
  let n := c.toNat
  if n < 0x10000 then [UInt16.ofNat n]
  else
    let rest := n - 0x10000
    [UInt16.ofNat (0xD800 + rest / 0x400), UInt16.ofNat (0xDC00 + rest % 0x400)]

def codeUnits (s : String) : List UInt16 := s.toList.flatMap unitsOfChar

def littleEndian (units : List UInt16) : List UInt8 :=
  units.flatMap fun u => [UInt8.ofNat (u.toNat % 256), UInt8.ofNat (u.toNat / 256)]

end Text

/-- The function that hashes a routing value before the hash is mapped onto a shard. -/
inductive RoutingHash where
  | murmur3
  | djb
deriving DecidableEq, Repr

namespace RoutingHash

/-- One step of the second function: thirty-three times the state plus the unit. -/
def djbStep (state : Int64) (unit : UInt16) : Int64 :=
  (state <<< 5) + state + Int64.ofNat unit.toNat

/-- The signed 32 bit hash of a routing value. -/
def hash : RoutingHash → String → Int32
  | murmur3, value => (Murmur3.hash 0 (Text.littleEndian (Text.codeUnits value))).toInt32
  | djb, value => ((Text.codeUnits value).foldl djbStep 5381).toInt32

def name : RoutingHash → String
  | murmur3 => "murmur3"
  | djb => "djb"

end RoutingHash

end ShardedQuery
