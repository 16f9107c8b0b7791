import SearchQuery.Entries
import SearchQuery.Number

/-!
# Documents

A finished document, as it is sent. Its objects keep the order of their entries, so two documents
are equal only if their keys stand in the same order.
-/

namespace SearchQuery

inductive Document where
  | null
  | bool (b : Bool)
  | number (n : Number)
  | string (text : String)
  | array (items : List Document)
  | object (entries : List (String × Document))
deriving Inhabited

namespace Document

/-- The entries of an object. Anything else has none. -/
def entries : Document → Entries Document
  | .object entries => entries
  | _ => []

end Document

end SearchQuery
