import SearchQuery.Document.Text

/-!
# Errors

Why a query could not be built. An error holds its cause, and its wording stands in one place.
-/

namespace SearchQuery

/-- Calls that make no sense where they stand. -/
inductive Misuse where
  /-- Raised by the caller's own procedure. -/
  | reported (message : String)
  | optionsNotObject (clause : String)
  | sortOrder (order : String)
  | sortDirection (direction : Number)
  | sortCriteria (criteria : Document)
  | reservedName (name : String)
  | nestedFilter

namespace Misuse

def message : Misuse → String
  | .reported message => message
  | .optionsNotObject clause => clause ++ " options must be an object"
  | .sortOrder order => "invalid sort order '" ++ order ++ "', expected 'asc' or 'desc'"
  | .sortDirection direction =>
    "invalid sort direction " ++ String.ofList direction.text ++ ", expected 1 or -1"
  | .sortCriteria criteria => "invalid sort criteria " ++ criteria.compact
  | .reservedName name => "'" ++ name ++ "' is a builder operation and cannot be dispatched by name"
  | .nestedFilter => "can't filter from a filter"

end Misuse

inductive QueryError where
  | usage (misuse : Misuse)
  /-- An unknown operation was called with arguments. -/
  | unresolvedOperation (name : String) (arity : Nat)
  /-- An option that the clause does not know. -/
  | invalidOption (clause option : String)

/-- A usage error lies in the call, a validation error in what was handed to it. -/
inductive ErrorKind where
  | usage
  | validation
deriving DecidableEq

namespace QueryError

def kind : QueryError → ErrorKind
  | .usage _ => .usage
  | .unresolvedOperation _ _ => .usage
  | .invalidOption _ _ => .validation

def message : QueryError → String
  | .usage misuse => "Usage error: " ++ misuse.message
  | .unresolvedOperation name arity =>
    "Usage error: unresolved operation '" ++ name ++ "' called with " ++ toString arity ++
      " argument(s)"
  | .invalidOption clause option =>
    "Validation error: '" ++ option ++ "' is not a valid " ++ clause ++ " option"

end QueryError

end SearchQuery
