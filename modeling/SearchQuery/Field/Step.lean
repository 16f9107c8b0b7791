import SearchQuery.Field
import SearchQuery.Outcome

/-!
# Steps on a field

The calls that a caller makes on a field, as data, and what they do.
-/

namespace SearchQuery

inductive FieldStep where
  | bound (side : Bound) (value : Value)
  | is (value : Value)
  | matching (kind : MatchKind) (text : Value)
  | matchingWith (text : Value) (options : Document)
  | matchAll (values : List Value)
  | matchAny (values : List Value)
  | matchAtLeast (values : List Value) (minimum : UInt64)
  | regex (pattern : String)
  | route (occur : Occur)
  | note
  /-- Takes the step and goes on if it fails. -/
  | attempt (step : FieldStep)

namespace FieldStep

/-! ## Other words for the same steps -/

abbrev gt : Value → FieldStep := .bound .gt
abbrev lt : Value → FieldStep := .bound .lt
abbrev gte : Value → FieldStep := .bound .gte
abbrev lte : Value → FieldStep := .bound .lte

abbrev equals : Value → FieldStep := .is
abbrev be : Value → FieldStep := .is

abbrev phrase : Value → FieldStep := .matching .phrase
abbrev phrasePrefix : Value → FieldStep := .matching .phrasePrefix

abbrev allOf : List Value → FieldStep := .matchAll
abbrev all : List Value → FieldStep := .matchAll
abbrev anyOf : List Value → FieldStep := .matchAny

abbrev must : FieldStep := .route .must
abbrev mustNot : FieldStep := .route .mustNot
abbrev should : FieldStep := .route .should
abbrev mustBe : FieldStep := must
abbrev mustNotBe : FieldStep := mustNot
abbrev shouldBe : FieldStep := should

/-! ## Running -/

def run : FieldStep → Field → Outcome Field
  | .bound side value, field => .done (field.setBound side value)
  | .is value, field => .done (field.setTerm value)
  | .matching kind text, field => .done (field.setMatch kind text)
  | .matchingWith text options, field => .ofExcept field (field.setMatchWith text options)
  | .matchAll values, field => .done (field.addTerms values (.ofNat values.length))
  | .matchAny values, field => .done (field.addTerms values 1)
  | .matchAtLeast values minimum, field => .done (field.addTerms values minimum)
  | .regex pattern, field => .done (field.addRegex pattern)
  | .route occur, field => .done (field.route occur)
  | .note, field => .noted field (.field field.name field.occur)
  | .attempt step, field => (step.run field).caught

def runAll : List FieldStep → Field → Outcome Field := Outcome.runAll run

end FieldStep

end SearchQuery
