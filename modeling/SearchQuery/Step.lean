import SearchQuery.Aggregation
import SearchQuery.Field.Step

/-!
# Steps

A procedure is a list of steps, and a step is data. The body of a group is run on a draft of its
own, the body of a filter on a filter. A filter takes every call that a draft takes, and one step
more. It refuses another filter, but the draft that it holds is within reach and does not.
-/

namespace SearchQuery

mutual

/-- The calls that drafts and filters take alike. -/
inductive Call where
  | queryString (text : String) (options : Document)
  | multiMatch (text : String) (fields : List String) (options : Document)
  | group (occur : Occur) (body : List Step)
  | field (name : String) (steps : List FieldStep)
  /-- An operation that is named at run time. -/
  | named (name : String) (arguments : List Document) (steps : List FieldStep)
  | aggregate (body : List AggregationStep)
  | sort (field : String) (criteria : Document)
  | fail (error : QueryError)
  | note (text : String)
  /-- Notes whether the draft is a root. -/
  | probe

/-- A step of a procedure that is run on a draft. -/
inductive Step where
  | call (call : Call)
  | filter (body : List FilterStep)
  /-- Takes the step and goes on if it fails. -/
  | attempt (step : Step)

/-- A step of a procedure that is run on a filter. -/
inductive FilterStep where
  | call (call : Call)
  /-- Always refused. The body is not run. -/
  | filter (body : List FilterStep)
  /-- A filter asked of the draft that the filter holds. Most calls hand this draft back, and the
  next call can be made on it. -/
  | draftFilter (body : List FilterStep)
  /-- Sets the query half. The body is run on a root draft. -/
  | query (body : List Step)
  | attempt (step : FilterStep)

end

/-- The operations that have a step of their own. None of them can be reached by its name. -/
def reservedNames : List String :=
  [ "query_string", "multi_match", "must", "must_not", "should", "field", "filter", "aggregate",
    "sort", "finalize" ]

/-- The field that an operation named at run time declares. It takes no arguments. -/
def resolveName (name : String) (arguments : List Document) : Except QueryError String :=
  if reservedNames.contains name then .error (.usage (.reservedName name))
  else if arguments.isEmpty then .ok name
  else .error (.unresolvedOperation name arguments.length)

end SearchQuery
