import SearchQuery.QueryError
import SearchQuery.Value.Resolve

/-!
# Options

Extra settings that a caller hands to a clause or to a search, and the full-text clauses that are
made of them.
-/

namespace SearchQuery

/-- Null stands for no options. Only an object holds options. -/
def readOptions (clause : String) : Document → Except QueryError (Entries Value)
  | .null => .ok []
  | .object entries => .ok (Document.toValueEntries entries)
  | _ => .error (.usage (.optionsNotObject clause))

/-! ## Full-text clauses -/

/-- The options that a `query_string` clause knows. -/
def queryStringOptions : List String :=
  [ "query", "default_field", "default_operator", "analyzer", "allow_leading_wildcard",
    "lowercase_expanded_terms", "enable_position_increments", "fuzzy_max_expansions", "fuzziness",
    "fuzzy_prefix_length", "phrase_slop", "boost", "analyze_wildcard",
    "auto_generate_phrase_queries", "minimum_should_match", "lenient", "locale" ]

/-- A free-text search. The text takes the place of a `query` option. -/
def queryString (text : String) (options : Document) : Except QueryError Value := do
  let options ← readOptions "query_string" options
  match (Entries.keys options).find? (fun key => !queryStringOptions.contains key) with
  | some key => .error (.invalidOption "query_string" key)
  | none => .ok (.object (Entries.insert "query" (.string text) options))

/-- A search over several fields. The options are passed through, but for `query` and `fields`. -/
def multiMatch (text : String) (fields : List String) (options : Document) :
    Except QueryError Value := do
  let options ← readOptions "multi_match" options
  let options := Entries.insert "query" (.string text) options
  .ok (.object (Entries.insert "fields" (.array (fields.map .string)) options))

end SearchQuery
