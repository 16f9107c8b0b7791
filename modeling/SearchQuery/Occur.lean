/-!
# Boolean groups
-/

namespace SearchQuery

/-- How an entry of a `bool` clause has to occur in a match. -/
inductive Occur where
  | must
  | mustNot
  | should
deriving DecidableEq

/-- The key of the group inside a `bool` clause. -/
def Occur.key : Occur → String
  | .must => "must"
  | .mustNot => "must_not"
  | .should => "should"

end SearchQuery
