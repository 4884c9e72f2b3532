import ShardedQuery.Hash.Routing

/-!
# Indices

An index spreads its documents over a fixed number of shards by the hash of their routing value.
The hash is first reduced to one of the index's slots; the slots are then folded, an equal number at
a time, into the shards.  A shrunk index keeps the slots it had before.

* `Index.create`, `Index.withSlots`, `Index.withPartitionSize` — the checked ways to make one.
* `Index.shardOf` — the shard of a routing value and a partition offset.
-/

namespace ShardedQuery

/-- How a signed hash is reduced to a slot. -/
inductive SlotPolicy where
  /-- The remainder that is never negative. -/
  | floorMod
  /-- The absolute value of the remainder that has the sign of the hash. -/
  | legacyAbsMod
deriving DecidableEq, Repr

def SlotPolicy.name : SlotPolicy → String
  | floorMod => "floor_mod"
  | legacyAbsMod => "legacy_abs_mod"

/-- How an index spreads its documents. -/
structure Index where
  name : String
  shards : UInt32
  slots : UInt32
  /-- Documents of one routing value are spread over this many consecutive hashes. -/
  partitionSize : UInt32
  hash : RoutingHash
  policy : SlotPolicy
  shards_pos : 0 < shards.toNat
  shards_dvd : shards.toNat ∣ slots.toNat
  slots_pos : 0 < slots.toNat
  partitionSize_pos : 0 < partitionSize.toNat

/-- Why there is no such index. -/
inductive Index.Fault where
  | noShards
  | unevenSlots
  | emptyPartition
deriving DecidableEq, Repr

def Index.Fault.message : Index.Fault → String
  | noShards => "an index needs at least one shard"
  | unevenSlots => "routing_num_shards must be a multiple of number_of_shards"
  | emptyPartition => "routing partition size must be positive"

namespace Index

/-- An index with one slot per shard. -/
def create (name : String) (shards : UInt32) : Except Fault Index :=
  if h : 0 < shards.toNat then
    .ok
      { name, shards, slots := shards, partitionSize := 1, hash := .murmur3, policy := .floorMod
        shards_pos := h, shards_dvd := Nat.dvd_refl _, slots_pos := h
        partitionSize_pos := by decide }
  else .error .noShards

/-- The index with a number of slots, which has to be a positive multiple of its shards. -/
def withSlots (index : Index) (slots : UInt32) : Except Fault Index :=
  if h : 0 < slots.toNat ∧ index.shards.toNat ∣ slots.toNat then
    .ok { index with slots, slots_pos := h.1, shards_dvd := h.2 }
  else .error .unevenSlots

/-- The index with a partition size, which has to be positive. -/
def withPartitionSize (index : Index) (size : UInt32) : Except Fault Index :=
  if h : 0 < size.toNat then .ok { index with partitionSize := size, partitionSize_pos := h }
  else .error .emptyPartition

/-- The number of slots that are folded into one shard. -/
def slotsPerShard (index : Index) : UInt32 := index.slots / index.shards

def slotOfHash (index : Index) (hash : Int32) : Nat :=
  match index.policy with
  | .floorMod => (hash.toInt % (index.slots.toNat : Int)).toNat
  | .legacyAbsMod => (hash.toInt.tmod index.slots.toNat).natAbs

def shardOfHash (index : Index) (hash : Int32) : UInt32 :=
  UInt32.ofNat (index.slotOfHash hash / index.slotsPerShard.toNat)

/-- The shard of the documents with a routing value and a partition offset; the offset is added to
the hash, which wraps around. -/
def shardOf (index : Index) (routing : String) (offset : UInt32) : UInt32 :=
  index.shardOfHash (index.hash.hash routing + offset.toInt32)

end Index

end ShardedQuery
