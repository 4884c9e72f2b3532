import ShardedQuery.Proofs.Cluster.Index
import ShardedQuery.Proofs.Planning.LocalGroups

/-!
# Where the groups of the clustering column are

A plan that groups where the records are relies on every group being on one shard.  Whether it is
depends on the index: it is the routing value of a record and its offset that decide on the shard,
and only an index that gathers the records of each value keeps the groups together.  What decides on
the plan is the table alone.

* `Index.Stores` — shards that hold the records the index puts there;
* `Index.gathersValues_iff_isLocal` — the index gathers values exactly if the groups of the
  clustering column are always on one shard;
* `Planning.localGroups_gathers_iff` — **for a plan that was chosen, this holds exactly if the index
  does not spread its values or has a single shard**.
-/

namespace ShardedQuery

/-! ### Records on their shards -/

namespace Index

/-- Each of these shards, given by its number, holds records that the index puts there at one of the
offsets of their routing value. -/
def Stores (index : Index) (routing : Record → String) (shards : List (UInt32 × List Record)) :
    Prop :=
  ∀ s ∈ shards, ∀ r ∈ s.2, ∃ o, o < index.partitionSize ∧ index.shardOf (routing r) o = s.1

/-- **An index gathers the records of each value exactly if the groups of the clustering column are
on one shard each**, whichever way the records are stored. -/
theorem gathersValues_iff_isLocal (E : Engine) (index : Index) (column : Column)
    {text : Literal → String} (htext : ∀ v, text (.string v) = v) :
    index.GathersValues ↔ ∀ shards, (shards.map Prod.fst).Nodup →
      index.Stores (fun r => text (r.column column)) shards →
      E.IsLocal [.reference column] (shards.map Prod.snd) := by
  constructor
  · intro hgathers shards hnodup hstores
    rw [Engine.IsLocal, List.pairwise_map]
    refine (List.pairwise_map.mp hnodup).imp_of_mem fun {s s'} hs hs' hne r hr r' hr' hkeys => ?_
    obtain ⟨o, ho, hshard⟩ := hstores s hs r hr
    obtain ⟨o', ho', hshard'⟩ := hstores s' hs' r' hr'
    have hvalue : r.column column = r'.column column := (List.cons.inj hkeys).1
    apply hne
    calc s.1 = index.shardOf (text (r.column column)) o := hshard.symm
      _ = index.shardOf (text (r.column column)) o' := hgathers _ o o' ho ho'
      _ = index.shardOf (text (r'.column column)) o' := by rw [hvalue]
      _ = s'.1 := hshard'
  · intro hlocal value o₁ o₂ h₁ h₂
    by_contra hne
    -- Two records with this value, one on each of the shards.
    let r : Record := ⟨fun _ => .string value, fun _ => .null⟩
    have hr : text (r.column column) = value := htext value
    have hstored : index.Stores (fun r => text (r.column column))
        [(index.shardOf value o₁, [r]), (index.shardOf value o₂, [r])] := by
      intro s hs r' hr'
      rcases List.mem_pair.mp hs with rfl | rfl <;> rw [List.mem_singleton.mp hr']
      · exact ⟨o₁, h₁, congrArg (index.shardOf · o₁) hr⟩
      · exact ⟨o₂, h₂, congrArg (index.shardOf · o₂) hr⟩
    have hapart := List.rel_of_pairwise_cons (hlocal _ (by simpa using hne) hstored)
      List.mem_cons_self
    exact hapart r List.mem_cons_self r List.mem_cons_self rfl

end Index

/-! ### The plan that was chosen -/

namespace Planning

variable {env : Environment} {table : Table} {q : Select} {p p' : Progress} {plan : Plan}

/-- **A plan that groups by one column where the records are was chosen for an index that keeps each
group on one shard exactly if this index does not spread the records of a value over several hashes,
or has a single shard.**  The column is the one that the table is clustered by, and the groups of
the query are together exactly if the records of each of its values are. -/
theorem localGroups_gathers_iff {key : Symbol} (hkey : q.groupBy = some [key])
    (hplan : localGroups? env table q p = .ok (some plan) p') :
    ∃ column, key = .reference column ∧ table.clusteredBy = some column.name ∧
      ∀ name index, Environment.indicesOf table q.filter = [name] →
        env.cluster.indices[name]? = some index →
        (index.GathersValues ↔ index.partitionSize = 1 ∨ index.shards = 1) ∧
        ∀ (E : Engine) (text : Literal → String), (∀ v, text (.string v) = v) →
          (index.GathersValues ↔ ∀ shards, (shards.map Prod.fst).Nodup →
            index.Stores (fun r => text (r.column column)) shards →
            E.IsLocal q.groupKeys (shards.map Prod.snd)) := by
  obtain ⟨keys, hkeys, hlocal, -⟩ := localGroups?_eq_ok hplan
  rw [hkey] at hkeys
  cases hkeys
  obtain ⟨column, rfl, hclustered⟩ := Table.clusteredBy_of_groupsAreLocal hlocal
  refine ⟨column, rfl, hclustered, fun _ index _ _ => ⟨index.gathersValues_iff, ?_⟩⟩
  intro E text htext
  rw [Select.groupKeys, hkey]
  exact index.gathersValues_iff_isLocal E column htext

/-- An index that spreads the records of a value over two hashes. -/
def spreadIndex : Index :=
  { cityIndex with partitionSize := 2, partitionSize_pos := Nat.zero_lt_two }

/-- The values of the column. -/
def cities : Select where
  outputs := [city]
  groupBy := some [city]

/-- The values of the column, where none is spread: its records are together. -/
theorem localGroups_gathers_cities :
    let table := (Table.ofDocuments "doc" "t").withClusteredBy "city"
    (∃ plan p', localGroups? (twoShards cityIndex) table cities (.start 0) = .ok (some plan) p') ∧
      cityIndex.GathersValues := by
  intro table
  obtain ⟨_, p', hplan, hsome⟩ : ∃ plan? p',
      localGroups? (twoShards cityIndex) table cities (.start 0) = .ok plan? p' ∧ plan?.isSome :=
    exists_of_succeedsWith (by decide +kernel)
  obtain ⟨plan, rfl⟩ := Option.isSome_iff_exists.mp hsome
  obtain ⟨column, -, -, hiff⟩ := localGroups_gathers_iff rfl hplan
  have hindex : (twoShards cityIndex).cluster.indices["t"]? = some cityIndex :=
    Std.TreeMap.getElem?_insert_self
  exact ⟨⟨plan, p', hplan⟩, (hiff "t" cityIndex rfl hindex).1.mpr (.inl rfl)⟩

/-- The same plan is chosen where each value is spread over two hashes, and the records of one value
are on both shards then. -/
theorem localGroups_scatters_cities :
    let env := twoShards spreadIndex
    let table := (Table.ofDocuments "doc" "t").withClusteredBy "city"
    (∃ plan p', localGroups? env table cities (.start 0) = .ok (some plan) p') ∧
      Environment.indicesOf table cities.filter = ["t"] ∧
      env.cluster.indices["t"]? = some spreadIndex ∧
      spreadIndex.shardOf "berlin" 0 ≠ spreadIndex.shardOf "berlin" 1 ∧
      ¬ spreadIndex.GathersValues := by
  intro env table
  have hne : spreadIndex.shardOf "berlin" 0 ≠ spreadIndex.shardOf "berlin" 1 := by
    decide +kernel
  obtain ⟨_, p', hplan, hsome⟩ : ∃ plan? p',
      localGroups? env table cities (.start 0) = .ok plan? p' ∧ plan?.isSome :=
    exists_of_succeedsWith (by decide +kernel)
  obtain ⟨plan, rfl⟩ := Option.isSome_iff_exists.mp hsome
  exact ⟨⟨plan, p', hplan⟩, rfl, Std.TreeMap.getElem?_insert_self, hne,
    fun h => hne (h "berlin" 0 1 (by decide) (by decide))⟩

end Planning

end ShardedQuery
