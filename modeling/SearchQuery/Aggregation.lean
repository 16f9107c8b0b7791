import SearchQuery.Outcome
import SearchQuery.Value

/-!
# Aggregations

A function over a field, published under a name. A repeated name keeps its first place and takes the
last registration.
-/

namespace SearchQuery

structure Aggregation where
  function : String
  field : String
  name : String
deriving DecidableEq

namespace Aggregation

/-- The name under which an aggregation is published if nobody renames it. -/
def defaultName (function field : String) : String := field ++ "_" ++ function

def of (function field : String) : Aggregation :=
  ⟨function, field, defaultName function field⟩

def rename (name : String) (aggregation : Aggregation) : Aggregation :=
  { aggregation with name := name }

/-- Renames once for each name, so the last one stays. -/
def renameAll (names : List String) (aggregation : Aggregation) : Aggregation :=
  names.foldl (fun acc name => acc.rename name) aggregation

def body (aggregation : Aggregation) : Value :=
  .pair aggregation.function (.pair "field" (.string aggregation.field))

/-- The `aggs` clause: under each name its function and field. -/
def clause (aggregations : List Aggregation) : Value :=
  .object (Entries.ofList (aggregations.map (fun a => (a.name, a.body))))

end Aggregation

/-- The functions that have a name of their own. Any other is given by its text. -/
inductive Metric where
  | min
  | max
  | sum
  | avg
  | valueCount
  | cardinality
  | stats
  | extendedStats
  | percentiles
  | terms
deriving DecidableEq

def Metric.name : Metric → String
  | .min => "min"
  | .max => "max"
  | .sum => "sum"
  | .avg => "avg"
  | .valueCount => "value_count"
  | .cardinality => "cardinality"
  | .stats => "stats"
  | .extendedStats => "extended_stats"
  | .percentiles => "percentiles"
  | .terms => "terms"

/-! ## Steps -/

inductive AggregationStep where
  /-- Registers a function over a field, and then renames it once for each name. -/
  | register (function field : String) (names : List String)
  | fail (error : QueryError)
  | note (text : String)

namespace AggregationStep

abbrev metric (metric : Metric) : (field : String) → (names : List String) → AggregationStep :=
  .register metric.name

def run : AggregationStep → List Aggregation → Outcome (List Aggregation)
  | .register function field names, registered =>
    .done (registered ++ [(Aggregation.of function field).renameAll names])
  | .fail error, registered => .failed registered error
  | .note text, registered => .noted registered (.label text)

def runAll : List AggregationStep → List Aggregation → Outcome (List Aggregation) :=
  Outcome.runAll run

end AggregationStep

end SearchQuery
