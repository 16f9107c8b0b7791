import SearchQuery.Aggregation
import SearchQuery.Field
import SearchQuery.Value.Merge

/-!
# Drafts

A query under construction. In a root draft a bare clause or field stands for an entry of an implicit
`must` group, and the document is wrapped with its sort criteria. A group draft gives its clauses as
they are.
-/

namespace SearchQuery

structure Draft where
  isRoot : Bool
  clauses : Clauses := []
  fields : List Field := []
  sort : List (String × Value) := []

namespace Draft

def root : Draft := { isRoot := true }

def group : Draft := { isRoot := false }

/-! ## The document -/

/-- A field with a group goes into its list. One without is merged with the other clauses. -/
def place (clauses : Clauses) (field : Field) : Clauses :=
  match field.occur with
  | some occur => clauses.appendToGroup occur (.object field.payload)
  | none => Value.mergeEntries clauses field.payload

/-- All clauses, after every field has been placed in the order of its declaration. -/
def allClauses (draft : Draft) : Clauses := draft.fields.foldl place draft.clauses

def clauseDocument (draft : Draft) : Document := (Value.object draft.allClauses).resolve

def sortDocument (draft : Draft) : Document :=
  (Value.array (draft.sort.map (fun entry => .pair entry.1 entry.2))).resolve

def document (draft : Draft) : Document :=
  if draft.isRoot then
    .object <| ("query", draft.clauseDocument) ::
      if draft.sort.isEmpty then [] else [("sort", draft.sortDocument)]
  else draft.clauseDocument

/-! ## What a call changes -/

def addToGroup (occur : Occur) (entry : Document) (draft : Draft) : Draft :=
  { draft with clauses := draft.clauses.appendToGroup occur entry.toValue }

def store (key : String) (clause : Value) (draft : Draft) : Draft :=
  { draft with clauses := Entries.insert key clause draft.clauses }

/-- A bare clause. In a root draft it becomes the only clause of a `must` group. -/
def addClause (key : String) (clause : Value) (draft : Draft) : Draft :=
  if draft.isRoot then draft.addToGroup .must (group.store key clause).document
  else draft.store key clause

def addFiltered (entry : Document) (draft : Draft) : Draft :=
  { draft with clauses := draft.clauses.append "filtered" entry.toValue }

/-- The field that a declaration in this draft starts from. -/
def newField (draft : Draft) (name : String) : Field :=
  { name := name, occur := if draft.isRoot then some .must else none }

def addField (field : Field) (draft : Draft) : Draft :=
  { draft with fields := draft.fields ++ [field] }

def hasAggregations (draft : Draft) : Bool := Entries.contains "aggs" draft.clauses

/-- Aggregations are resolved together with the draft. -/
def setAggregations (aggregations : List Aggregation) (draft : Draft) : Draft :=
  draft.store "aggs" (.deferred (Aggregation.clause aggregations))

def addSort (field : String) (criterion : Value) (draft : Draft) : Draft :=
  { draft with sort := draft.sort ++ [(field, criterion)] }

end Draft

end SearchQuery
