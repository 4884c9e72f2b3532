import ShardedQuery.Proofs.Planning.FailureKinds
import ShardedQuery.Proofs.Planning.LocalGroups

/-!
# Remembered routings

A routing that was found is remembered under the name of its table, the routing values and the
partitions, and is used again whenever these are asked for.  The rest of the table and of the filter
is not looked at then, so a remembered routing has to be the one that would be found anew.

* `RoutingRequest`, `Environment.allocations` — routings that are asked for one after the other.
* `Environment.findRouting_congr` — what is remembered under one key is found for each request with
  it, as long as a name stands for one table.
* `Environment.Recalls` — all that is remembered was found for some request; every allocation keeps
  this (`Allocates.recalls`).
* `Environment.allocations_transparent` — **remembering is not observable** for tables on nodes and
  in shards; a table that any node can answer for keeps the node that was picked first.
-/

namespace ShardedQuery

/-! ### What a routing depends on -/

namespace Routing

variable {values values' : RoutingValues}

/-- Of the routing values of an index only their list counts. -/
theorem shardsOfIndex_congr (cluster : Cluster) {name : String}
    (h : values[name]?.map Std.TreeSet.toList = values'[name]?.map Std.TreeSet.toList) :
    shardsOfIndex cluster values name = shardsOfIndex cluster values' name := by
  unfold shardsOfIndex
  cases cluster.tables[name]? with
  | none => rfl
  | some table =>
    cases cluster.indices[name]? with
    | none => rfl
    | some index =>
      cases hvalues : values[name]? <;> cases hvalues' : values'[name]? <;>
        simp_all

theorem ofIndices_congr (cluster : Cluster) (awareness : List String) (seed : Int32)
    (indices : List String) (ignoreMissing : Bool)
    (h : ∀ name : String,
      values[name]?.map Std.TreeSet.toList = values'[name]?.map Std.TreeSet.toList) :
    ofIndices cluster awareness seed indices values ignoreMissing =
      ofIndices cluster awareness seed indices values' ignoreMissing := by
  have hindex : shardsOfIndex cluster values = shardsOfIndex cluster values' :=
    funext fun name => shardsOfIndex_congr cluster (h name)
  unfold ofIndices targets
  rw [hindex]

/-- A table that any node can answer for is read on the local node if that can, and else on one of
the nodes that can. -/
theorem eq_onNode_of_ofAnyNode {name : String} {members : Members} {random random' : RandomStream}
    {r : Routing} (h : ofAnyNode name members random = .ok (r, random')) :
    ∃ node, r = onNode name node ∧
      if members.localRoles?.any (·.eligible) then node = members.localId
      else ∃ roles, members.nodes[node]? = some roles ∧ roles.eligible = true := by
  unfold ofAnyNode at h
  split at h
  · rename_i hlocal
    cases h
    exact ⟨_, rfl, by rw [if_pos hlocal]⟩
  · rename_i hlocal
    dsimp only at h
    split at h
    · rename_i node hnode
      cases h
      refine ⟨node, rfl, ?_⟩
      rw [if_neg hlocal]
      have hmem := List.mem_of_getElem? hnode
      simp only [Members.eligible, List.mem_map, List.mem_filter] at hmem
      obtain ⟨⟨id, roles⟩, ⟨hroles, heligible⟩, rfl⟩ := hmem
      exact ⟨roles, Std.TreeMap.mem_toList_iff_getElem?_eq_some.mp hroles, heligible⟩
    · cases h

end Routing

namespace Environment

/-- Each index of a request has all routing values of the filter. -/
theorem getElem?_routingValuesOf (filter : WhereClause) (indices : List String) (name : String) :
    (routingValuesOf filter indices)[name]? =
      if name ∈ indices then filter.routingValues else none := by
  unfold routingValuesOf
  cases filter.routingValues with
  | none => simp
  | some values =>
    have hfold : ∀ byIndex : RoutingValues,
        (indices.foldl (fun byIndex index => byIndex.insert index values) byIndex)[name]? =
          if name ∈ indices then some values else byIndex[name]? := by
      induction indices with
      | nil => intro byIndex; simp
      | cons index indices ih =>
        intro byIndex
        rw [List.foldl_cons, ih, Std.TreeMap.getElem?_insert]
        by_cases hmem : name ∈ indices
        · simp [hmem]
        · by_cases hname : index = name
          · simp [hname]
          · simp [hmem, hname, Ne.symm hname]
    exact hfold ∅

variable {env : Environment} {table : Table} {filter filter' : WhereClause}

/-- **The routing of a table depends on the filter only through its key.** -/
theorem findRouting_congr (h : routingKey table filter = routingKey table filter')
    (random : RandomStream) :
    env.findRouting table filter random = env.findRouting table filter' random := by
  injection h with _ hvalues hpartitions
  unfold findRouting
  cases table.granularity with
  | cluster | node => rfl
  | shard | doc =>
    have hindices : indicesOf table filter = indicesOf table filter' := by
      unfold indicesOf
      rw [hpartitions]
    have hlists : ∀ name : String,
        (routingValuesOf filter (indicesOf table filter'))[name]?.map Std.TreeSet.toList =
          (routingValuesOf filter' (indicesOf table filter'))[name]?.map Std.TreeSet.toList := by
      intro name
      rw [getElem?_routingValuesOf, getElem?_routingValuesOf]
      split
      · exact hvalues
      · rfl
    dsimp only
    rw [hindices, Routing.ofIndices_congr _ _ _ _ _ hlists]

/-- A routing that is not picked at random does not depend on the random stream. -/
theorem findRouting_of_ne_cluster (h : table.granularity ≠ .cluster)
    (random random' : RandomStream) :
    (env.findRouting table filter random).map Prod.fst =
      (env.findRouting table filter random').map Prod.fst := by
  unfold findRouting
  cases hscope : table.granularity with
  | cluster => exact absurd hscope h
  | node => rfl
  | shard | doc =>
    dsimp only
    cases Routing.ofIndices env.cluster env.settings.awarenessAttributes env.seed
      (indicesOf table filter) (routingValuesOf filter (indicesOf table filter))
      env.settings.ignoreMissingShards <;> rfl

end Environment

/-! ### One routing after the other -/

/-- A routing that is asked for. -/
structure RoutingRequest where
  table : Table
  filter : WhereClause

/-- What the routing is remembered under. -/
def RoutingRequest.key (request : RoutingRequest) : RoutingKey :=
  Environment.routingKey request.table request.filter

/-- A routing that was asked for: the progress before, what came out, and the progress after. -/
structure Allocation where
  request : RoutingRequest
  before : Progress
  outcome : Except PlanningError Routing
  after : Progress

namespace Environment

/-- The allocation of a routing. -/
def allocation (env : Environment) (p : Progress) (request : RoutingRequest) : Allocation :=
  match env.allocateRouting request.table request.filter p with
  | .ok routing q => ⟨request, p, .ok routing, q⟩
  | .error e q => ⟨request, p, .error e, q⟩

/-- The allocations of some routings in a row. -/
def allocations (env : Environment) : Progress → List RoutingRequest → List Allocation
  | _, [] => []
  | p, request :: requests =>
    env.allocation p request :: env.allocations (env.allocation p request).after requests

/-- The progress after some routings in a row. -/
def progressAfter (env : Environment) (p : Progress) (requests : List RoutingRequest) : Progress :=
  requests.foldl (fun p request => (env.allocation p request).after) p

/-- What an allocation can do. -/
inductive Allocates (env : Environment) (p : Progress) (request : RoutingRequest) :
    Except PlanningError Routing → Progress → Prop where
  /-- The filter keeps no row. -/
  | nowhere (hfilter : request.filter.noMatch = true) : env.Allocates p request (.ok .empty) p
  /-- The routing was found before. -/
  | recalled {r : Routing} (hfilter : request.filter.noMatch = false)
      (hrecalled : p.routings.lookup request.key = some r) : env.Allocates p request (.ok r) p
  /-- The routing is found now. -/
  | found {r : Routing} {random : RandomStream} (hfilter : request.filter.noMatch = false)
      (hnew : p.routings.lookup request.key = none)
      (hfound : env.findRouting request.table request.filter p.random = .ok (r, random)) :
      env.Allocates p request (.ok r)
        { p with routings := (request.key, r) :: p.routings, random }
  /-- There is no routing. -/
  | failed {e : PlanningError} (hfilter : request.filter.noMatch = false)
      (hnew : p.routings.lookup request.key = none)
      (hfailed : env.findRouting request.table request.filter p.random = .error e) :
      env.Allocates p request (.error e) p

theorem allocateRouting_eq (env : Environment) (table : Table) (filter : WhereClause)
    (p : Progress) :
    env.allocateRouting table filter p =
      if filter.noMatch then .ok .empty p
      else
        match p.routings.lookup (routingKey table filter) with
        | some routing => .ok routing p
        | none =>
          match env.findRouting table filter p.random with
          | .ok (routing, random) =>
            .ok routing
              { p with routings := (routingKey table filter, routing) :: p.routings, random }
          | .error e => .error e p := by
  unfold allocateRouting
  cases filter.noMatch with
  | true => rfl
  | false =>
    simp only [Bool.false_eq_true, if_false]
    -- the progress that is read is the one at the start
    show EStateM.bind (fun p => .ok p p) _ p = _
    unfold EStateM.bind
    dsimp only
    cases p.routings.lookup (routingKey table filter) with
    | some routing => rfl
    | none =>
      dsimp only
      cases env.findRouting table filter p.random <;> rfl

/-- **An allocation does one of these.** -/
theorem allocates (env : Environment) (p : Progress) (request : RoutingRequest) :
    env.Allocates p request (env.allocation p request).outcome
      (env.allocation p request).after := by
  unfold allocation
  rw [allocateRouting_eq]
  cases hfilter : request.filter.noMatch with
  | true => exact .nowhere hfilter
  | false =>
    cases hlookup : p.routings.lookup (routingKey request.table request.filter) with
    | some routing => exact .recalled hfilter hlookup
    | none =>
      cases hfind : env.findRouting request.table request.filter p.random with
      | ok found => exact .found hfilter hlookup hfind
      | error e => exact .failed hfilter hlookup hfind

theorem request_allocation (env : Environment) (p : Progress) (request : RoutingRequest) :
    (env.allocation p request).request = request := by
  unfold allocation
  cases env.allocateRouting request.table request.filter p <;> rfl

theorem before_allocation (env : Environment) (p : Progress) (request : RoutingRequest) :
    (env.allocation p request).before = p := by
  unfold allocation
  cases env.allocateRouting request.table request.filter p <;> rfl

/-! ### What is remembered -/

/-- The routing is found for the request, with some random stream. -/
def FoundFor (env : Environment) (request : RoutingRequest) (r : Routing) : Prop :=
  ∃ random random', env.findRouting request.table request.filter random = .ok (r, random')

/-- All that is remembered was found for one of these requests. -/
def Recalls (env : Environment) (requests : List RoutingRequest) (p : Progress) : Prop :=
  ∀ key r, p.routings.lookup key = some r →
    ∃ request ∈ requests, request.key = key ∧ env.FoundFor request r

/-- A name stands for one table. -/
def NamesTables (requests : List RoutingRequest) : Prop :=
  ∀ a ∈ requests, ∀ b ∈ requests, a.table.name = b.table.name → a.table = b.table

variable {env : Environment} {p : Progress} {request : RoutingRequest}
  {requests : List RoutingRequest} {r : Routing}

theorem recalls_start (env : Environment) (seed : Int32) (requests : List RoutingRequest) :
    env.Recalls requests (.start seed) := fun _ _ h => nomatch h

namespace Allocates

variable {outcome : Except PlanningError Routing} {q : Progress}

/-- An allocation remembers, beside what was remembered, at most what it found for its request. -/
theorem recalls (h : env.Allocates p request outcome q) (hp : env.Recalls requests p)
    (hrequest : request ∈ requests) : env.Recalls requests q := by
  cases h with
  | nowhere | recalled | failed => exact hp
  | @found r random hfilter hnew hfound =>
    intro key r' hr'
    rw [List.lookup_cons] at hr'
    split at hr'
    · rename_i hkey
      cases hr'
      exact ⟨request, hrequest, (eq_of_beq hkey).symm, p.random, random, hfound⟩
    · exact hp key r' hr'

/-- What is remembered stays. -/
theorem lookup_of_lookup (h : env.Allocates p request outcome q) {key : RoutingKey}
    (hp : p.routings.lookup key = some r) : q.routings.lookup key = some r := by
  cases h with
  | nowhere | recalled | failed => exact hp
  | found hfilter hnew hfound =>
    have hother : (key == request.key) = false := by
      rw [beq_eq_false_iff_ne]
      rintro rfl
      rw [hnew] at hp
      cases hp
    rw [List.lookup_cons, hother]
    exact hp

/-- A routing is remembered from then on, unless the filter keeps no row. -/
theorem lookup_key (h : env.Allocates p request (.ok r) q)
    (hfilter : request.filter.noMatch = false) : q.routings.lookup request.key = some r := by
  cases h with
  | nowhere hnowhere =>
    rw [hfilter] at hnowhere
    cases hnowhere
  | recalled _ hrecalled => exact hrecalled
  | found _ hnew hfound => simp

/-- A routing is the one of this request, also if it was found for another one. -/
theorem foundFor (h : env.Allocates p request (.ok r) q) (hnames : NamesTables requests)
    (hp : env.Recalls requests p) (hrequest : request ∈ requests)
    (hfilter : request.filter.noMatch = false) : env.FoundFor request r := by
  cases h with
  | nowhere hnowhere =>
    rw [hfilter] at hnowhere
    cases hnowhere
  | recalled _ hrecalled =>
    obtain ⟨other, hother, hkey, random, random', hfound⟩ := hp _ _ hrecalled
    have htable : other.table = request.table :=
      hnames other hother request hrequest (congrArg RoutingKey.table hkey)
    unfold RoutingRequest.key at hkey
    rw [htable] at hkey hfound
    exact ⟨random, random', by rw [← findRouting_congr hkey]; exact hfound⟩
  | @found _ random _ _ hfound => exact ⟨p.random, random, hfound⟩

/-- A filter that keeps no row leads nowhere and changes nothing. -/
theorem eq_empty_of_noMatch (h : env.Allocates p request outcome q)
    (hfilter : request.filter.noMatch = true) : outcome = .ok .empty ∧ q = p := by
  cases h with
  | nowhere => exact ⟨rfl, rfl⟩
  | recalled hfilter' | found hfilter' | failed hfilter' =>
    rw [hfilter] at hfilter'
    cases hfilter'

/-- What comes out is what is found anew, whatever was remembered and with any random stream, if
nothing is picked at random. -/
theorem outcome_eq (h : env.Allocates p request outcome q) (hnames : NamesTables requests)
    (hp : env.Recalls requests p) (hrequest : request ∈ requests)
    (hscope : request.table.granularity ≠ .cluster) (random : RandomStream) :
    outcome = if request.filter.noMatch then .ok .empty
      else (env.findRouting request.table request.filter random).map Prod.fst := by
  have hany : ∀ random', (env.findRouting request.table request.filter random).map Prod.fst =
      (env.findRouting request.table request.filter random').map Prod.fst :=
    findRouting_of_ne_cluster hscope random
  cases hfilter : request.filter.noMatch with
  | true => exact (h.eq_empty_of_noMatch hfilter).1
  | false =>
    rw [if_neg Bool.false_ne_true]
    cases outcome with
    | ok r =>
      obtain ⟨random', _, hfound⟩ := h.foundFor hnames hp hrequest hfilter
      rw [hany random', hfound]
      rfl
    | error e =>
      cases h with
      | failed _ _ hfailed =>
        rw [hany p.random, hfailed]
        rfl

/-- If there is a node that can answer for the cluster, one is found. -/
theorem eligible_of_error {e : PlanningError} (h : env.Allocates p request (.error e) q)
    (hscope : request.table.granularity = .cluster) : env.cluster.members.eligible = [] := by
  cases h with
  | failed _ _ hfailed =>
    unfold findRouting at hfailed
    rw [hscope] at hfailed
    exact (failsOnly_ofAnyNode _ _ _ e hfailed).2

/-- A failure changes nothing. -/
theorem after_of_error {e : PlanningError} (h : env.Allocates p request (.error e) q) : q = p := by
  cases h
  rfl

end Allocates

/-! ### Sequences of allocations -/

/-- Each allocation of a sequence starts with what its predecessors remember. -/
theorem spec_of_mem_allocations {asked : List RoutingRequest} (hasked : ∀ a ∈ asked, a ∈ requests)
    (hp : env.Recalls requests p) {c : Allocation} (hc : c ∈ env.allocations p asked) :
    c.request ∈ requests ∧ env.Recalls requests c.before ∧
      env.Allocates c.before c.request c.outcome c.after := by
  induction asked generalizing p with
  | nil => cases hc
  | cons request asked ih =>
    rw [List.forall_mem_cons] at hasked
    have hstep := env.allocates p request
    rcases List.mem_cons.mp hc with rfl | hc
    · rw [request_allocation, before_allocation]
      exact ⟨hasked.1, hp, hstep⟩
    · exact ih hasked.2 (hstep.recalls hp hasked.1) hc

theorem lookup_progressAfter {asked : List RoutingRequest} {key : RoutingKey}
    (hp : p.routings.lookup key = some r) :
    (env.progressAfter p asked).routings.lookup key = some r := by
  induction asked generalizing p with
  | nil => exact hp
  | cons request asked ih => exact ih ((env.allocates p request).lookup_of_lookup hp)

/-- A routing that comes out is remembered to the end. -/
theorem lookup_of_mem_allocations {asked : List RoutingRequest} {c : Allocation}
    (hc : c ∈ env.allocations p asked) (hfilter : c.request.filter.noMatch = false)
    (hr : c.outcome = .ok r) :
    (env.progressAfter p asked).routings.lookup c.request.key = some r := by
  induction asked generalizing p with
  | nil => cases hc
  | cons request asked ih =>
    rcases List.mem_cons.mp hc with rfl | hc
    · have hstep := env.allocates p request
      rw [hr] at hstep
      rw [request_allocation] at hfilter ⊢
      exact lookup_progressAfter (p := (env.allocation p request).after) (hstep.lookup_key hfilter)
    · exact ih hc

theorem map_request_allocations (env : Environment) (p : Progress)
    (requests : List RoutingRequest) :
    (env.allocations p requests).map (·.request) = requests := by
  induction requests generalizing p with
  | nil => rfl
  | cons request requests ih =>
    rw [allocations, List.map_cons, ih, request_allocation]

/-- The node that answers for the cluster: the local one if it can, and else one that can. -/
def AnswersForCluster (env : Environment) (node : String) : Prop :=
  if env.cluster.members.localRoles?.any (·.eligible) then node = env.handler
  else ∃ roles, env.cluster.members.nodes[node]? = some roles ∧ roles.eligible = true

theorem FoundFor.exists_node (h : env.FoundFor request r)
    (hscope : request.table.granularity = .cluster) :
    ∃ node, r = .onNode request.table.name.qualified node ∧ env.AnswersForCluster node := by
  obtain ⟨random, random', hfound⟩ := h
  unfold findRouting at hfound
  rw [hscope] at hfound
  exact Routing.eq_onNode_of_ofAnyNode hfound

/-- **Remembered routings are not observable.**  Routings are asked for one after the other, and
tables of one name are equal.

* On a table that is read on all nodes or in shards, each request ends as it would with nothing
  remembered, whether it succeeds or fails.
* On a table that any node can answer for, all requests with one key that succeed have the same
  routing.  It names one node: the local one if it can answer, and else one that can.  A request
  fails only if no node can.
* A filter that keeps no row is given the empty routing, whatever is remembered.
* A failure changes nothing: no routing is remembered and no random number is drawn. -/
theorem allocations_transparent (env : Environment) (requests : List RoutingRequest)
    (hnames : ∀ a ∈ requests, ∀ b ∈ requests, a.table.name = b.table.name → a.table = b.table) :
    (env.allocations (.start env.seed) requests).map (·.request) = requests ∧
    (∀ c ∈ env.allocations (.start env.seed) requests,
      c.request.table.granularity ≠ .cluster →
        c.outcome = (env.allocation (.start env.seed) c.request).outcome) ∧
    (∀ c ∈ env.allocations (.start env.seed) requests,
      c.request.table.granularity = .cluster → c.request.filter.noMatch = false →
      ∀ r, c.outcome = .ok r →
        (∀ d ∈ env.allocations (.start env.seed) requests,
          d.request.key = c.request.key → d.request.filter.noMatch = false →
          ∀ r', d.outcome = .ok r' → r' = r) ∧
        ∃ node, r = .onNode c.request.table.name.qualified node ∧ r.nodes = [node] ∧
          env.AnswersForCluster node) ∧
    (∀ c ∈ env.allocations (.start env.seed) requests,
      c.request.table.granularity = .cluster → ∀ e, c.outcome = .error e →
        env.cluster.members.eligible = []) ∧
    ∀ p request,
      (request.filter.noMatch = true →
        (env.allocation p request).outcome = .ok .empty ∧ (env.allocation p request).after = p) ∧
      ∀ e, (env.allocation p request).outcome = .error e → (env.allocation p request).after = p := by
  have hstart := env.recalls_start env.seed requests
  have hspec := fun c => spec_of_mem_allocations (c := c) (fun _ h => h) hstart
  refine ⟨map_request_allocations _ _ _, ?_, ?_, ?_, ?_⟩
  · intro c hc hscope
    obtain ⟨hrequest, hrecalls, hstep⟩ := hspec c hc
    have hfresh := env.allocates (.start env.seed) c.request
    rw [hstep.outcome_eq hnames hrecalls hrequest hscope (.start env.seed : Progress).random,
      hfresh.outcome_eq hnames hstart hrequest hscope]
  · intro c hc hscope hfilter r hr
    obtain ⟨hrequest, hrecalls, hstep⟩ := hspec c hc
    rw [hr] at hstep
    constructor
    · intro d hd hkey hfilter' r' hr'
      have hlast := lookup_of_mem_allocations hc hfilter hr
      have hlast' := lookup_of_mem_allocations hd hfilter' hr'
      rw [hkey, hlast] at hlast'
      exact (Option.some.inj hlast').symm
    · obtain ⟨node, hnode, hanswers⟩ :=
        (hstep.foundFor hnames hrecalls hrequest hfilter).exists_node hscope
      exact ⟨node, hnode, hnode ▸ rfl, hanswers⟩
  · intro c hc hscope e he
    obtain ⟨-, -, hstep⟩ := hspec c hc
    rw [he] at hstep
    exact hstep.eligible_of_error hscope
  · intro p request
    have hstep := env.allocates p request
    constructor
    · exact hstep.eq_empty_of_noMatch
    · intro e he
      rw [he] at hstep
      exact hstep.after_of_error

/-- A table in shards, one that the cluster answers for and one whose index is not there, the first
two asked for again after a filter that keeps no row. -/
theorem allocations_transparent_mixed :
    let env := Planning.twoShards Planning.cityIndex
    let t := Table.ofDocuments "doc" "t"
    let sys := Table.ofCluster "sys" "cluster"
    let lost := Table.ofDocuments "doc" "u"
    let requests : List RoutingRequest :=
      [⟨t, {}⟩, ⟨sys, {}⟩, ⟨lost, {}⟩, ⟨t, { noMatch := true }⟩, ⟨t, {}⟩, ⟨sys, {}⟩]
    (∀ a ∈ requests, ∀ b ∈ requests, a.table.name = b.table.name → a.table = b.table) ∧
      (∀ c ∈ env.allocations (.start env.seed) requests, c.request.table ≠ sys →
        c.outcome = (env.allocation (.start env.seed) c.request).outcome) ∧
      ∀ c ∈ env.allocations (.start env.seed) requests, c.request.table = sys →
        ∃ r, c.outcome = .ok r ∧ r.nodes = ["n1"] := by
  intro env t sys lost requests
  have hnames : NamesTables requests := by
    unfold NamesTables
    decide
  obtain ⟨hrequests, hfresh, hcluster, -⟩ := allocations_transparent env requests hnames
  have hscope : ∀ a ∈ requests,
      (a.table ≠ sys → a.table.granularity ≠ .cluster) ∧
      (a.table = sys → a.table.granularity = .cluster ∧ a.filter.noMatch = false) := by decide
  have hfound : ∀ c ∈ env.allocations (.start env.seed) requests,
      c.request.table = sys → c.outcome.isOk = true := by decide +kernel
  have hasked : ∀ c ∈ env.allocations (.start env.seed) requests, c.request ∈ requests := by
    intro c hc
    rw [← hrequests]
    exact List.mem_map_of_mem hc
  refine ⟨hnames, ?_, ?_⟩
  · intro c hc hother
    exact hfresh c hc ((hscope _ (hasked c hc)).1 hother)
  · intro c hc hsys
    obtain ⟨hgranularity, hfilter⟩ := (hscope _ (hasked c hc)).2 hsys
    have hok := hfound c hc hsys
    cases hr : c.outcome with
    | error e =>
      rw [hr] at hok
      cases hok
    | ok r =>
      obtain ⟨-, node, -, hnodes, hanswers⟩ := hcluster c hc hgranularity hfilter r hr
      unfold AnswersForCluster at hanswers
      rw [if_pos (by decide +kernel)] at hanswers
      rw [hanswers] at hnodes
      exact ⟨r, rfl, hnodes⟩

end Environment

end ShardedQuery
