import SearchQuery.Clauses
import SearchQuery.Options

/-!
# Fields

What a query asks of one document field: bounds, operators, and the boolean group that the whole
belongs to. A field without a group is merged with the other clauses instead.
-/

namespace SearchQuery

inductive Bound where
  | gt
  | lt
  | gte
  | lte
deriving DecidableEq

def Bound.key : Bound → String
  | .gt => "gt"
  | .lt => "lt"
  | .gte => "gte"
  | .lte => "lte"

inductive MatchKind where
  | plain
  | phrase
  | phrasePrefix
deriving DecidableEq

namespace MatchKind

def key : MatchKind → String
  | .plain => "match"
  | .phrase => "match_phrase"
  | .phrasePrefix => "match_phrase_prefix"

/-- Reads the selector options and takes them out. `prefix` selects only together with `phrase`, and
without it stays among the options. -/
def select (options : Entries Value) : MatchKind × Entries Value :=
  let rest := Entries.erase "phrase" options
  match Entries.get? "phrase" options with
  | none => (.plain, rest)
  | some selector =>
    if selector.isSet then
      let byPrefix := (Entries.get? "prefix" rest).any Value.isSet || selector.text? == some "prefix"
      (if byPrefix then .phrasePrefix else .phrase, Entries.erase "prefix" rest)
    else (.plain, rest)

end MatchKind

structure Field where
  name : String
  bounds : Entries Value := []
  operators : Clauses := []
  occur : Option Occur := none

namespace Field

/-! ## Bounds and operators -/

def setBound (bound : Bound) (value : Value) (field : Field) : Field :=
  { field with bounds := Entries.insert bound.key value field.bounds }

/-- An operator that holds one operand for the field. A second call replaces the operand. -/
def setOperator (key : String) (operand : Value) (field : Field) : Field :=
  { field with operators := field.operators.put key field.name operand }

/-- An operator that holds a list of entries. -/
def addEntry (key : String) (entry : Value) (field : Field) : Field :=
  { field with operators := field.operators.append key entry }

def setTerm (value : Value) (field : Field) : Field := field.setOperator "term" value

def setMatch (kind : MatchKind) (text : Value) (field : Field) : Field :=
  field.setOperator kind.key (.pair "query" text)

/-- A match with options. The text takes the place of a `query` option. -/
def setMatchWith (text : Value) (options : Document) (field : Field) : Except QueryError Field := do
  let options ← readOptions "match" options
  let (kind, options) := MatchKind.select (Entries.insert "query" text options)
  .ok (field.setOperator kind.key (.object options))

theorem setMatchWith_of_error {field : Field} {text : Value} {options : Document} {error : QueryError}
    (h : readOptions "match" options = .error error) :
    field.setMatchWith text options = .error error := by
  unfold setMatchWith
  rw [h]
  rfl

theorem setMatchWith_of_ok {field : Field} {text : Value} {options : Document}
    {read : Entries Value} (h : readOptions "match" options = .ok read) :
    field.setMatchWith text options = .ok (field.setOperator
      (MatchKind.select (Entries.insert "query" text read)).1.key
      (.object (MatchKind.select (Entries.insert "query" text read)).2)) := by
  unfold setMatchWith
  rw [h]
  rfl

/-- At least `minimum` of the values have to match. -/
def addTerms (values : List Value) (minimum : UInt64) (field : Field) : Field :=
  let entry := Entries.insert "minimum_should_match" (.ofUInt64 minimum)
    [(field.name, .array values)]
  field.addEntry "terms" (.object entry)

def addRegex (pattern : String) (field : Field) : Field :=
  field.addEntry "regex" (.pair field.name (.string pattern))

def route (occur : Occur) (field : Field) : Field := { field with occur := some occur }

/-! ## The payload -/

/-- The operators in the order of their first use, and the bounds after them. -/
def payload (field : Field) : Clauses :=
  if field.bounds.isEmpty then field.operators
  else Entries.insert "range" (.pair field.name (.object field.bounds)) field.operators

end Field

end SearchQuery
