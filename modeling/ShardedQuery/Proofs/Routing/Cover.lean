import Mathlib.Data.List.Dedup
import Mathlib.Data.List.Nodup
import Mathlib.Data.Prod.Basic
import ShardedQuery.Proofs.Routing.Targets
import ShardedQuery.Proofs.Symbol.Aggregates

/-!
# A routing covers its targets

A routing goes through its targets, each once, and adds every shard to the node of one copy.  What a
node reads of an index is therefore known at each moment, and in the end the whole is an exact cover.

* `ShardGroup.source?` — the node that a shard is read from.
* `Routing.reads` — all that a routing reads: shards with the node and the index.
* `Routing.shards_foldl_readOne` — what a node reads after some targets.
* `Routing.IsCover` — the routing reads each targeted shard that is readable exactly once, on a node
  that holds one of the best copies of it.
* `Routing.ofIndices_covers` — **a routing is a cover**, unless an index has a fault or a shard that
  has to be read is not readable; the first of these is the error.
-/

namespace ShardedQuery

/-! ### Lists without repetitions -/

section Distinct

variable {α β : Type} [BEq α] [LawfulBEq α]

theorem nodup_insertNew {xs : List α} (h : xs.Nodup) (x : α) : (insertNew xs x).Nodup := by
  unfold insertNew
  split
  · exact h
  · rename_i hnew
    rw [List.nodup_append]
    refine ⟨h, List.nodup_singleton x, ?_⟩
    rintro a ha b hb rfl
    rw [List.mem_singleton.mp hb] at ha
    exact hnew (List.contains_iff_mem.mpr ha)

theorem nodup_distinct (xs : List α) : (distinct xs).Nodup := by
  have hfold : ∀ found : List α, found.Nodup → (xs.foldl insertNew found).Nodup := by
    induction xs with
    | nil => exact fun _ h => h
    | cons x xs ih => exact fun found h => ih _ (nodup_insertNew h x)
  exact hfold [] List.nodup_nil

theorem mem_distinct {xs : List α} {x : α} : x ∈ distinct xs ↔ x ∈ xs := by
  refine ⟨mem_of_mem_distinct, fun h => ?_⟩
  have hfound : ∃ y ∈ xs.foldl insertNew [], (x == y) = true :=
    exists_mem_foldl_insertNew (fun a => beq_self_eq_true a) h
  obtain ⟨y, hy, hxy⟩ := hfound
  rw [eq_of_beq hxy]
  exact hy

/-- What is found first is found at its first appearance. -/
theorem findSome?_distinct (p : α → Option β) (xs : List α) :
    (distinct xs).findSome? p = xs.findSome? p := by
  have hfold : ∀ found : List α,
      (xs.foldl insertNew found).findSome? p = (found.findSome? p).or (xs.findSome? p) := by
    induction xs with
    | nil => exact fun found => (Option.or_none).symm
    | cons x xs ih =>
      intro found
      have hx : ((insertNew found x).findSome? p) = (found.findSome? p).or (p x) := by
        unfold insertNew
        by_cases hc : found.contains x = true
        · rw [if_pos hc]
          cases hfound : found.findSome? p with
          | some b => rfl
          | none => exact (List.findSome?_eq_none_iff.mp hfound x (List.contains_iff_mem.mp hc)).symm
        · rw [if_neg hc, List.findSome?_append, List.findSome?_singleton]
      rw [List.foldl_cons, ih, hx, Option.or_assoc, List.findSome?_cons]
      cases p x <;> rfl
  exact (hfold []).trans (Option.none_or)

end Distinct

/-! ### The copy that is read -/

theorem rotateLeft_perm {α : Type} (xs : List α) (n : Nat) : (xs.rotateLeft n).Perm xs := by
  unfold List.rotateLeft
  by_cases h : xs.length ≤ 1
  · simp [h]
  · simp only [h, if_false]
    exact List.perm_append_comm.trans (by rw [List.take_append_drop])

namespace ShardCopy

/-- Whether the copy can be read: it is on a node, and active or still being filled. -/
def isReadable (c : ShardCopy) : Bool := c.isAssigned && (c.isActive || c.isInitializing)

end ShardCopy

namespace ShardGroup

variable {g : ShardGroup} {seed : Int32}

/-- The node that a shard is read from, if it has a readable copy. -/
def source? (g : ShardGroup) (seed : Int32) : Option String := (g.readable seed).head?.bind (·.node)

/-- A node that may be read from: it holds an active copy, or one that is still being filled if no
node holds an active one. -/
def IsSource (g : ShardGroup) (node : String) : Prop :=
  ∃ c ∈ g.copies, c.node = some node ∧
    (c.isActive = true ∨
      c.isInitializing = true ∧ ∀ c' ∈ g.copies, c'.isActive = true → c'.isAssigned = false)

theorem mem_activeCopies {c : ShardCopy} :
    c ∈ g.activeCopies ↔ c ∈ g.copies ∧ c.isActive = true ∧ c.isAssigned = true := by
  simp [activeCopies]

theorem mem_initializingCopies {c : ShardCopy} :
    c ∈ g.initializingCopies ↔ c ∈ g.copies ∧ c.isInitializing = true ∧ c.isAssigned = true := by
  simp [initializingCopies]

theorem mem_readable {c : ShardCopy} :
    c ∈ g.readable seed ↔ c ∈ g.copies ∧ c.isReadable = true := by
  simp only [readable, List.mem_append, (rotateLeft_perm _ _).mem_iff, mem_activeCopies,
    mem_initializingCopies, ShardCopy.isReadable, Bool.and_eq_true, Bool.or_eq_true]
  tauto

theorem isSome_source? : (g.source? seed).isSome = g.copies.any (·.isReadable) := by
  unfold source?
  rw [Bool.eq_iff_iff, List.any_eq_true]
  cases hhead : (g.readable seed).head? with
  | none =>
    rw [List.head?_eq_none_iff] at hhead
    refine ⟨fun h => (nomatch h), ?_⟩
    rintro ⟨c, hc⟩
    have hmem : c ∈ g.readable seed := mem_readable.mpr hc
    rw [hhead] at hmem
    cases hmem
  | some c =>
    have hc := mem_readable.mp (List.mem_of_head? hhead)
    refine ⟨fun _ => ⟨c, hc⟩, fun _ => ?_⟩
    have hreadable := hc.2
    simp only [ShardCopy.isReadable, Bool.and_eq_true] at hreadable
    exact hreadable.1

/-- A shard is read from a node that holds one of its best copies. -/
theorem isSource_of_source? {node : String} (h : g.source? seed = some node) : g.IsSource node := by
  obtain ⟨c, hhead, hnode⟩ := Option.bind_eq_some_iff.mp h
  unfold readable at hhead
  rw [List.head?_append] at hhead
  cases hactive : (g.activeCopies.rotateLeft
      (seed.toInt % (g.activeCopies.length : Int)).toNat).head? with
  | some c' =>
    rw [hactive] at hhead
    cases hhead
    have hc := (rotateLeft_perm _ _).mem_iff.mp (List.mem_of_head? hactive)
    obtain ⟨hmem, hc, -⟩ := mem_activeCopies.mp hc
    exact ⟨c, hmem, hnode, .inl hc⟩
  | none =>
    rw [hactive, Option.none_or] at hhead
    obtain ⟨hmem, hc, -⟩ := mem_initializingCopies.mp (List.mem_of_head? hhead)
    refine ⟨c, hmem, hnode, .inr ⟨hc, fun c' hc' hactive' => ?_⟩⟩
    rw [List.head?_eq_none_iff] at hactive
    by_contra hassigned
    have hbest := mem_activeCopies.mpr ⟨hc', hactive', Bool.not_eq_false _ ▸ hassigned⟩
    rw [← (rotateLeft_perm _ _).mem_iff, hactive] at hbest
    cases hbest

end ShardGroup

/-- Whether a targeted shard has a readable copy. -/
def Cluster.isReadable (cluster : Cluster) (target : String × UInt32) : Bool :=
  (cluster.copiesOf target).any (·.isReadable)

namespace Routing

variable {r : Routing} {seed : Int32}

/-! ### What a routing reads -/

/-- All that a routing reads: shards with the node and the index, node by node. -/
def reads (r : Routing) : List (String × String × UInt32) :=
  r.locations.toList.flatMap fun location =>
    location.2.toList.flatMap fun entry => entry.2.map fun shard => (location.1, entry.1, shard)

/-- No node and no index is there without shards. -/
def IsFull (r : Routing) : Prop :=
  ∀ (node : String) (indices : Std.TreeMap String (List UInt32)),
    r.locations[node]? = some indices → indices.isEmpty = false ∧
      ∀ (name : String) (shards : List UInt32), indices[name]? = some shards → shards ≠ []

theorem values_eq_map {β : Type} (t : Std.TreeMap String β) : t.values = t.toList.map Prod.snd := by
  have hfold : t.values = t.foldr (fun _ value values => value :: values) [] := rfl
  rw [hfold, Std.TreeMap.foldr_eq_foldr_toList]
  induction t.toList with
  | nil => rfl
  | cons entry entries ih => rw [List.foldr_cons, ih, List.map_cons]

theorem shardCount_eq (r : Routing) : r.shardCount = r.reads.length := by
  have hsum : ∀ (xs : List (List UInt32)) (n : Nat),
      xs.foldl (fun count shards => count + shards.length) n = n + (xs.flatMap id).length := by
    intro xs
    induction xs with
    | nil => exact fun n => rfl
    | cons x xs ih =>
      intro n
      rw [List.foldl_cons, ih, List.flatMap_cons, List.length_append, Nat.add_assoc]
      rfl
  have hshards : (r.locations.values.flatMap (·.values)).flatMap id =
      r.reads.map fun read => read.2.2 := by
    simp only [reads, values_eq_map, List.flatMap_map, List.flatMap_assoc, List.map_flatMap,
      List.map_map, id, Function.comp_def, List.map_id']
  rw [shardCount, hsum, hshards, Nat.zero_add, List.length_map]

theorem mem_reads {node name : String} {shard : UInt32} :
    (node, name, shard) ∈ r.reads ↔ shard ∈ r.shards node name := by
  unfold reads shards
  constructor
  · intro h
    obtain ⟨⟨node', indices⟩, hlocation, h⟩ := List.mem_flatMap.mp h
    obtain ⟨⟨name', numbers⟩, hentry, h⟩ := List.mem_flatMap.mp h
    obtain ⟨shard', hshard, h⟩ := List.mem_map.mp h
    cases h
    rw [Std.TreeMap.mem_toList_iff_getElem?_eq_some] at hlocation hentry
    rw [hlocation, Option.bind_some, hentry]
    exact hshard
  · intro h
    cases hlocation : r.locations[node]? with
    | none =>
      rw [hlocation] at h
      cases h
    | some indices =>
      cases hentry : indices[name]? with
      | none =>
        rw [hlocation, Option.bind_some, hentry] at h
        cases h
      | some numbers =>
        rw [hlocation, Option.bind_some, hentry] at h
        refine List.mem_flatMap.mpr
          ⟨_, Std.TreeMap.mem_toList_iff_getElem?_eq_some.mpr hlocation, ?_⟩
        refine List.mem_flatMap.mpr ⟨_, Std.TreeMap.mem_toList_iff_getElem?_eq_some.mpr hentry, ?_⟩
        exact List.mem_map.mpr ⟨shard, h, rfl⟩

theorem nodup_reads (h : ∀ node name, (r.shards node name).Nodup) : r.reads.Nodup := by
  unfold reads
  rw [List.nodup_flatMap]
  constructor
  · rintro ⟨node, indices⟩ hlocation
    rw [Std.TreeMap.mem_toList_iff_getElem?_eq_some] at hlocation
    rw [List.nodup_flatMap]
    constructor
    · rintro ⟨name, numbers⟩ hentry
      rw [Std.TreeMap.mem_toList_iff_getElem?_eq_some] at hentry
      have hnodup := h node name
      unfold shards at hnodup
      rw [hlocation, Option.bind_some, hentry] at hnodup
      exact List.Nodup.map (fun a b hab => by cases hab; rfl) hnodup
    · refine Std.TreeMap.distinct_keys_toList.imp ?_
      intro a b hne x ha hb
      obtain ⟨_, -, rfl⟩ := List.mem_map.mp ha
      obtain ⟨_, -, hx⟩ := List.mem_map.mp hb
      have hkey : b.1 = a.1 := congrArg (fun x => x.2.1) hx
      exact hne (hkey ▸ Std.ReflCmp.compare_self)
  · refine Std.TreeMap.distinct_keys_toList.imp ?_
    intro a b hne x ha hb
    obtain ⟨_, -, ha⟩ := List.mem_flatMap.mp ha
    obtain ⟨_, -, hb⟩ := List.mem_flatMap.mp hb
    obtain ⟨_, -, rfl⟩ := List.mem_map.mp ha
    obtain ⟨_, -, hx⟩ := List.mem_map.mp hb
    have hkey : b.1 = a.1 := congrArg (fun x => x.1) hx
    exact hne (hkey ▸ Std.ReflCmp.compare_self)

/-! ### One shard after the other -/

theorem isFull_empty : empty.IsFull := by
  intro node indices h
  rw [empty, Std.TreeMap.getElem?_emptyc] at h
  cases h

theorem shards_empty (node name : String) : empty.shards node name = [] := by
  rw [shards, empty, Std.TreeMap.getElem?_emptyc]
  rfl

theorem shards_read (node' index' : String) (shard : UInt32) (node name : String) :
    (r.read node' index' shard).shards node name =
      if node' = node ∧ index' = name then r.shards node name ++ [shard]
      else r.shards node name := by
  unfold shards read
  rw [Std.TreeMap.getElem?_insert]
  by_cases hnode : node' = node
  · subst hnode
    rw [if_pos Std.ReflCmp.compare_self, Option.bind_some, Std.TreeMap.getElem?_insert]
    by_cases hname : index' = name
    · subst hname
      rw [if_pos Std.ReflCmp.compare_self, if_pos ⟨rfl, rfl⟩]
      cases r.locations[node']? <;> simp
    · rw [if_neg (mt Std.LawfulEqCmp.eq_of_compare hname), if_neg fun h => hname h.2]
      cases r.locations[node']? <;> simp
  · rw [if_neg (mt Std.LawfulEqCmp.eq_of_compare hnode), if_neg fun h => hnode h.1]

theorem IsFull.read (h : r.IsFull) (node' index' : String) (shard : UInt32) :
    (r.read node' index' shard).IsFull := by
  intro node indices hindices
  simp only [Routing.read, Std.TreeMap.getElem?_insert] at hindices
  split at hindices
  · cases hindices
    refine ⟨Std.TreeMap.isEmpty_insert, ?_⟩
    intro name shards hshards
    rw [Std.TreeMap.getElem?_insert] at hshards
    split at hshards
    · cases hshards
      exact List.append_ne_nil_of_right_ne_nil _ (List.cons_ne_nil _ _)
    · cases hold : r.locations[node']? with
      | none => simp [hold] at hshards
      | some old =>
        rw [hold, Option.getD_some] at hshards
        exact (h node' old hold).2 name shards hshards
  · exact h node indices hindices

theorem shards_sortShards (node name : String) :
    r.sortShards.shards node name = (r.shards node name).mergeSort fun a b => a ≤ b := by
  unfold shards sortShards
  rw [Std.TreeMap.getElem?_map]
  cases r.locations[node]? with
  | none => exact List.mergeSort_nil.symm
  | some indices =>
    rw [Option.map_some, Option.bind_some, Option.bind_some, Std.TreeMap.getElem?_map]
    cases indices[name]? with
    | none => exact List.mergeSort_nil.symm
    | some numbers => rfl

theorem IsFull.sortShards (h : r.IsFull) : r.sortShards.IsFull := by
  intro node indices hindices
  rw [Routing.sortShards, Std.TreeMap.getElem?_map, Option.map_eq_some_iff] at hindices
  obtain ⟨old, hold, rfl⟩ := hindices
  obtain ⟨hentries, hnonempty⟩ := h node old hold
  refine ⟨Std.TreeMap.isEmpty_map.trans hentries, ?_⟩
  intro name shards hshards
  rw [Std.TreeMap.getElem?_map, Option.map_eq_some_iff] at hshards
  obtain ⟨unsorted, hunsorted, rfl⟩ := hshards
  have hlength := (List.mergeSort_perm unsorted fun a b => a ≤ b).length_eq
  rw [← List.length_pos_iff, hlength, List.length_pos_iff]
  exact hnonempty name unsorted hunsorted

/-! ### Going through the targets -/

/-- The routing that reads a shard, too, if it is readable. -/
def readOne (seed : Int32) (r : Routing) (g : ShardGroup) : Routing :=
  match g.source? seed with
  | some node => r.read node g.index g.shard
  | none => r

/-- A shard that is not readable is a fault, unless such shards are left out. -/
def unreadable? (seed : Int32) (ignoreMissing : Bool) (g : ShardGroup) : Option PlanningError :=
  if ignoreMissing || (g.source? seed).isSome then none
  else some (.shardsUnavailable g.index g.shard)

theorem readShard_eq (ignoreMissing : Bool) (g : ShardGroup) :
    readShard seed ignoreMissing r g =
      orFault (unreadable? seed ignoreMissing g) (readOne seed r g) := by
  unfold readShard unreadable? readOne ShardGroup.source?
  cases (g.readable seed).head?.bind (·.node) <;> cases ignoreMissing <;> rfl

/-- **What a node reads of an index after some targets**: those whose source it is. -/
theorem shards_foldl_readOne (groups : List ShardGroup) (node name : String) :
    (groups.foldl (readOne seed) r).shards node name = r.shards node name ++
      (groups.filter fun g => g.source? seed = some node ∧ g.index = name).map (·.shard) := by
  induction groups generalizing r with
  | nil => exact (List.append_nil _).symm
  | cons g groups ih =>
    rw [List.foldl_cons, ih]
    unfold readOne
    cases hsource : g.source? seed with
    | none => simp [hsource]
    | some node' =>
      rw [shards_read]
      by_cases hhere : node' = node ∧ g.index = name
      · rw [if_pos hhere, List.filter_cons_of_pos (by simp [hsource, hhere]), List.append_assoc]
        rfl
      · rw [if_neg hhere, List.filter_cons_of_neg (by simpa [hsource] using hhere)]

theorem isFull_foldl_readOne (groups : List ShardGroup) (h : r.IsFull) :
    (groups.foldl (readOne seed) r).IsFull := by
  induction groups generalizing r with
  | nil => exact h
  | cons g groups ih =>
    refine ih ?_
    unfold readOne
    cases g.source? seed with
    | none => exact h
    | some node => exact h.read node g.index g.shard

/-! ### The cover -/

/-- A routing covers its targets exactly. -/
structure IsCover (cluster : Cluster) (targets : List (String × UInt32)) (r : Routing) : Prop where
  /-- The targeted shards that are readable are read, each once, and nothing else is. -/
  once : (r.reads.map Prod.snd).Perm (targets.filter cluster.isReadable).dedup
  /-- A node that reads a shard holds one of its best copies. -/
  source : ∀ node name shard, (node, name, shard) ∈ r.reads →
    (cluster.group (name, shard)).IsSource node
  /-- What a node reads of an index is strictly increasing. -/
  increasing : ∀ node name, (r.shards node name).Pairwise (· < ·)
  /-- A node that takes part reads something of each index that it has. -/
  full : r.IsFull
  /-- The number of shards read is the number of targets that are readable. -/
  count : r.shardCount = (targets.filter cluster.isReadable).dedup.length

section Cover

variable (cluster : Cluster) (targets : List (String × UInt32)) (seed : Int32)

/-- The routing that goes through the targets, each once. -/
def readAll : Routing :=
  ((distinct (targets.map cluster.group)).foldl (readOne seed) empty).sortShards

/-- The shards that a node reads of an index, before they are sorted. -/
theorem shards_readAll_perm (node name : String) :
    ((readAll cluster targets seed).shards node name).Perm
      (((distinct (targets.map cluster.group)).filter fun g =>
        g.source? seed = some node ∧ g.index = name).map (·.shard)) := by
  rw [readAll, shards_sortShards, shards_foldl_readOne, shards_empty, List.nil_append]
  exact List.mergeSort_perm _ _

theorem mem_shards_readAll {node name : String} {shard : UInt32} :
    shard ∈ (readAll cluster targets seed).shards node name ↔
      (name, shard) ∈ targets ∧ (cluster.group (name, shard)).source? seed = some node := by
  rw [(shards_readAll_perm cluster targets seed node name).mem_iff, List.mem_map]
  constructor
  · rintro ⟨g, hg, rfl⟩
    rw [List.mem_filter, mem_distinct, List.mem_map, decide_eq_true_iff] at hg
    obtain ⟨⟨⟨name', shard⟩, htarget, rfl⟩, hsource, rfl⟩ := hg
    exact ⟨htarget, hsource⟩
  · rintro ⟨htarget, hsource⟩
    refine ⟨cluster.group (name, shard), ?_, rfl⟩
    rw [List.mem_filter, mem_distinct, decide_eq_true_iff]
    exact ⟨List.mem_map_of_mem htarget, hsource, rfl⟩

theorem nodup_shards_readAll (node name : String) :
    ((readAll cluster targets seed).shards node name).Nodup := by
  rw [(shards_readAll_perm cluster targets seed node name).nodup_iff]
  refine List.Nodup.map_on ?_ ((nodup_distinct _).filter _)
  intro g hg g' hg' hshard
  rw [List.mem_filter, mem_distinct, List.mem_map, decide_eq_true_iff] at hg hg'
  obtain ⟨⟨⟨name₁, shard₁⟩, -, rfl⟩, -, rfl⟩ := hg
  obtain ⟨⟨⟨name₂, shard₂⟩, -, rfl⟩, -, hname⟩ := hg'
  have hname : name₂ = name₁ := hname
  have hshard : shard₁ = shard₂ := hshard
  rw [hname, hshard]

theorem increasing_readAll (node name : String) :
    ((readAll cluster targets seed).shards node name).Pairwise (· < ·) := by
  have hnodup := nodup_shards_readAll cluster targets seed node name
  have hle : ((readAll cluster targets seed).shards node name).Pairwise (· ≤ ·) := by
    rw [readAll, shards_sortShards]
    refine (List.pairwise_mergeSort ?_ ?_ _).imp of_decide_eq_true
    · intro a b c hab hbc
      rw [decide_eq_true_iff] at hab hbc ⊢
      exact UInt32.le_trans hab hbc
    · intro a b
      rw [Bool.or_eq_true, decide_eq_true_iff, decide_eq_true_iff]
      exact UInt32.le_total a b
  exact (hle.and hnodup).imp fun h => UInt32.lt_of_le_of_ne h.1 h.2

theorem nodup_reads_readAll : (readAll cluster targets seed).reads.Nodup :=
  nodup_reads (nodup_shards_readAll cluster targets seed)

/-- No shard is read twice: the node that reads it is determined by the shard. -/
theorem nodup_map_reads_readAll : ((readAll cluster targets seed).reads.map Prod.snd).Nodup := by
  refine List.Nodup.map_on ?_ (nodup_reads_readAll cluster targets seed)
  rintro ⟨node, name, shard⟩ h ⟨node', name', shard'⟩ h' heq
  cases heq
  rw [mem_reads, mem_shards_readAll] at h h'
  rw [Option.some.inj (h.2.symm.trans h'.2)]

theorem mem_map_reads_readAll {target : String × UInt32} :
    target ∈ (readAll cluster targets seed).reads.map Prod.snd ↔
      target ∈ targets ∧ cluster.isReadable target = true := by
  obtain ⟨name, shard⟩ := target
  have hreadable : cluster.isReadable (name, shard) =
      ((cluster.group (name, shard)).source? seed).isSome :=
    (ShardGroup.isSome_source? (g := cluster.group (name, shard))).symm
  rw [hreadable, Option.isSome_iff_exists, List.mem_map]
  constructor
  · rintro ⟨⟨node, name', shard'⟩, h, heq⟩
    cases heq
    rw [mem_reads, mem_shards_readAll] at h
    exact ⟨h.1, node, h.2⟩
  · rintro ⟨htarget, node, hsource⟩
    refine ⟨(node, name, shard), ?_, rfl⟩
    rw [mem_reads, mem_shards_readAll]
    exact ⟨htarget, hsource⟩

/-- **Going through the targets gives a cover.** -/
theorem isCover_readAll : IsCover cluster targets (readAll cluster targets seed) := by
  have honce : ((readAll cluster targets seed).reads.map Prod.snd).Perm
      (targets.filter cluster.isReadable).dedup := by
    rw [List.perm_ext_iff_of_nodup (nodup_map_reads_readAll cluster targets seed)
      (List.nodup_dedup _)]
    intro target
    rw [mem_map_reads_readAll, List.mem_dedup, List.mem_filter]
  refine ⟨honce, ?_, increasing_readAll cluster targets seed,
    (isFull_foldl_readOne _ isFull_empty).sortShards, ?_⟩
  · intro node name shard h
    rw [mem_reads, mem_shards_readAll] at h
    exact ShardGroup.isSource_of_source? h.2
  · rw [shardCount_eq, ← honce.length_eq, List.length_map]

/-- The first target that is not readable is the fault of the whole, unless such are left out. -/
theorem findSome?_unreadable (ignoreMissing : Bool) :
    (distinct (targets.map cluster.group)).findSome? (unreadable? seed ignoreMissing) =
      if ignoreMissing then none
      else (targets.find? fun target => !cluster.isReadable target).map fun target =>
        .shardsUnavailable target.1 target.2 := by
  rw [findSome?_distinct, List.findSome?_map]
  have htarget : ∀ target, unreadable? seed ignoreMissing (cluster.group target) =
      if ignoreMissing || cluster.isReadable target then none
      else some (.shardsUnavailable target.1 target.2) := by
    intro target
    rw [unreadable?, ShardGroup.isSome_source?]
    rfl
  rw [show unreadable? seed ignoreMissing ∘ cluster.group = _ from funext htarget]
  cases ignoreMissing with
  | true => simp
  | false =>
    induction targets with
    | nil => rfl
    | cons target targets ih =>
      rw [List.findSome?_cons, List.find?_cons, ih]
      cases cluster.isReadable target <;> rfl

end Cover

/-- **A routing is an exact cover of the targeted shards.**  Without allocation awareness:

* the first index that is not there, or of which a shard is asked for that is not there, makes the
  routing fail, whatever is ignored;
* else the first targeted shard that is not readable makes it fail, unless such are ignored;
* else there is a routing, and it reads each targeted shard that is readable exactly once. -/
theorem ofIndices_covers (cluster : Cluster) (seed : Int32) (indices : List String)
    (values : RoutingValues) (ignoreMissing : Bool) :
    let targets := cluster.targeted values indices
    let routed := ofIndices cluster [] seed indices values ignoreMissing
    match indices.findSome? (cluster.fault? values) with
    | some fault => routed = .error fault
    | none =>
      match if ignoreMissing then none else targets.find? fun t => !cluster.isReadable t with
      | some (name, shard) => routed = .error (.shardsUnavailable name shard)
      | none => ∃ r, routed = .ok r ∧ IsCover cluster targets r := by
  intro targets routed
  have hrouted : routed = orFault
      ((indices.findSome? (cluster.fault? values)).or
        (if ignoreMissing then none
          else (targets.find? fun target => !cluster.isReadable target).map fun target =>
            .shardsUnavailable target.1 target.2))
      (readAll cluster targets seed) := by
    have hstep : readShard seed ignoreMissing = fun r g =>
        orFault (unreadable? seed ignoreMissing g) (readOne seed r g) :=
      funext fun r => funext fun g => readShard_eq ignoreMissing g
    show ofIndices cluster [] seed indices values ignoreMissing = _
    simp only [ofIndices, List.isEmpty_nil, if_true, targets_eq, hstep, foldlM_orFault,
      orFault_map]
    rw [orFault_bind _ _
      (fun groups : List ShardGroup => groups.findSome? (unreadable? seed ignoreMissing))
      (fun groups => (groups.foldl (readOne seed) empty).sortShards), findSome?_unreadable]
    rfl
  have hcover := isCover_readAll cluster targets seed
  rw [hrouted]
  cases indices.findSome? (cluster.fault? values) with
  | some fault => rfl
  | none =>
    cases ignoreMissing with
    | true => exact ⟨_, rfl, hcover⟩
    | false =>
      simp only [Bool.false_eq_true, if_false]
      cases targets.find? fun target => !cluster.isReadable target with
      | some target => rfl
      | none => exact ⟨_, rfl, hcover⟩

end Routing

end ShardedQuery
