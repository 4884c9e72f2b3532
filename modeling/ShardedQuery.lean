import ShardedQuery.Number.Decimal
import ShardedQuery.Hash.Routing
import ShardedQuery.Random.ChaCha
import ShardedQuery.Error
import ShardedQuery.Symbol.Display
import ShardedQuery.Query.Select
import ShardedQuery.Routing.Resolve
import ShardedQuery.Planning.Planner
import ShardedQuery.Settings.Reader
import ShardedQuery.Execution.MergeBarrier
import ShardedQuery.Plan.InputColumns
import ShardedQuery.Proofs.Symbol.Nested
import ShardedQuery.Proofs.Number.Rounding
import ShardedQuery.Proofs.Symbol.Aggregates
import ShardedQuery.Proofs.Semantics.Values
import ShardedQuery.Proofs.Rows.Sorting
import ShardedQuery.Proofs.Rows.Trimming
import ShardedQuery.Proofs.Rows.Exactness
import ShardedQuery.Proofs.Semantics.Runs
import ShardedQuery.Proofs.Planning.Outcomes
import ShardedQuery.Proofs.Planning.Windows
import ShardedQuery.Proofs.Semantics.Reading
import ShardedQuery.Proofs.Semantics.Orders
import ShardedQuery.Proofs.Semantics.Emissions
import ShardedQuery.Proofs.Planning.Stages
import ShardedQuery.Proofs.Planning.Trees
import ShardedQuery.Proofs.Planning.Answers
import ShardedQuery.Proofs.Planning.Collecting
import ShardedQuery.Proofs.Planning.PlainSelect
import ShardedQuery.Proofs.Semantics.Grouping
import ShardedQuery.Proofs.Semantics.Tiers
import ShardedQuery.Proofs.Planning.Aggregation
import ShardedQuery.Proofs.Planning.LocalGroups
import ShardedQuery.Proofs.Hash.Murmur3
import ShardedQuery.Proofs.Hash.Routing
import ShardedQuery.Proofs.Hash.Collisions
import ShardedQuery.Proofs.Hash.Truncation
import ShardedQuery.Proofs.Cluster.Index
import ShardedQuery.Proofs.Cluster.Resizing
import ShardedQuery.Proofs.Planning.GroupPlacement
import ShardedQuery.Proofs.Execution.Rounds
import ShardedQuery.Proofs.Execution.Arrivals
import ShardedQuery.Proofs.Execution.Verdicts
import ShardedQuery.Proofs.Routing.Targets
import ShardedQuery.Proofs.Routing.Cover
import ShardedQuery.Proofs.Routing.CopyOrder
import ShardedQuery.Proofs.Routing.Found
import ShardedQuery.Proofs.Cluster.Configuring
import ShardedQuery.Proofs.Planning.RoutingCache
import ShardedQuery.Proofs.Planning.Failures
import ShardedQuery.Proofs.Planning.PhaseIds
import ShardedQuery.Proofs.Planning.Calls
import ShardedQuery.Proofs.Planning.Widths
import ShardedQuery.Proofs.Planning.WellFormed
import ShardedQuery.Proofs.Symbol.Derivable
import ShardedQuery.Proofs.Symbol.Valuations
import ShardedQuery.Proofs.Symbol.RowLevel
import ShardedQuery.Proofs.Rows.Positions
import ShardedQuery.Proofs.Planning.FailureKinds
import ShardedQuery.Proofs.Planning.Derivability
import ShardedQuery.Proofs.Planning.Validity
import ShardedQuery.Proofs.Planning.Counting
import ShardedQuery.Proofs.Planning.Batches
import ShardedQuery.Proofs.Planning.Descriptions
import ShardedQuery.Proofs.Planning.Kinds
import ShardedQuery.Proofs.Planning.AggregateEntries
import ShardedQuery.Proofs.Planning.AggregateStages
import ShardedQuery.Proofs.Planning.AggregateTiers
