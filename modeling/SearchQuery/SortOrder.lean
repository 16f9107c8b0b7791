import SearchQuery.QueryError
import SearchQuery.Value.Resolve

/-!
# Sort criteria

A criterion is an order by name in any letter case, the directions 1 and -1, or an object that is
used as it stands.
-/

namespace SearchQuery

inductive SortOrder where
  | asc
  | desc
deriving DecidableEq

namespace SortOrder

def name : SortOrder → String
  | .asc => "asc"
  | .desc => "desc"

/-- Letter case does not matter, for the letters of ASCII. -/
def ofText? (text : String) : Option SortOrder :=
  if text.toLower = "asc" then some .asc
  else if text.toLower = "desc" then some .desc
  else none

/-- Only whole numbers are directions, `1.0` is none. -/
def ofNumber? : Number → Option SortOrder
  | .int n _ => if n = 1 then some .asc else if n = -1 then some .desc else none
  | .float _ _ => none

def criterion (order : SortOrder) : Value := .pair "order" (.string order.name)

end SortOrder

def sortCriterion : Document → Except QueryError Value
  | .object entries => .ok (.object (Document.toValueEntries entries))
  | .string text =>
    match SortOrder.ofText? text with
    | some order => .ok order.criterion
    | none => .error (.usage (.sortOrder text))
  | .number n =>
    match SortOrder.ofNumber? n with
    | some order => .ok order.criterion
    | none => .error (.usage (.sortDirection n))
  | criteria => .error (.usage (.sortCriteria criteria))

end SearchQuery
