import SearchQuery.Draft
import SearchQuery.Filter
import SearchQuery.SortOrder
import SearchQuery.Step

/-!
# Running procedures

What each step does to the draft or filter it is run on. An inner body is run on a fresh draft, and
its result is stored only if it succeeds, so a group, filter, query or aggregation that fails leaves
no trace but its notes.
-/

namespace SearchQuery

/-- Declares a field and takes its steps. The field stays declared if a step fails. -/
def Draft.declare (name : String) (steps : List FieldStep) (draft : Draft) : Outcome Draft :=
  let field := FieldStep.runAll steps (draft.newField name)
  ⟨draft.addField field.state, field.notes, field.error⟩

mutual

def Call.run : Call → Draft → Outcome Draft
  | .queryString text options, draft =>
    .ofExcept draft ((queryString text options).map (draft.addClause "query_string" ·))
  | .multiMatch text fields options, draft =>
    .ofExcept draft ((multiMatch text fields options).map (draft.addClause "multi_match" ·))
  | .group occur body, draft =>
    (Step.runAll body .group).into draft (fun inner => draft.addToGroup occur inner.document)
  | .field name steps, draft => draft.declare name steps
  | .named name arguments steps, draft =>
    match resolveName name arguments with
    | .ok name => draft.declare name steps
    | .error error => .failed draft error
  | .aggregate body, draft =>
    if draft.hasAggregations then .done draft
    else (AggregationStep.runAll body []).into draft (fun found => draft.setAggregations found)
  | .sort field criteria, draft =>
    .ofExcept draft ((sortCriterion criteria).map (draft.addSort field ·))
  | .fail error, draft => .failed draft error
  | .note text, draft => .noted draft (.label text)
  | .probe, draft => .noted draft (.context draft.isRoot)

def Step.run : Step → Draft → Outcome Draft
  | .call call, draft => call.run draft
  | .filter body, draft =>
    (FilterStep.runAll body {}).into draft (fun inner => draft.addFiltered inner.document)
  | .attempt step, draft => (step.run draft).caught

def FilterStep.run : FilterStep → Filter → Outcome Filter
  | .call call, filter =>
    let outcome := call.run filter.draft
    ⟨filter.setDraft outcome.state, outcome.notes, outcome.error⟩
  | .filter _, filter => .failed filter (.usage .nestedFilter)
  | .draftFilter body, filter =>
    (FilterStep.runAll body {}).into filter (fun inner =>
      filter.setDraft (filter.draft.addFiltered inner.document))
  | .query body, filter =>
    (Step.runAll body .root).into filter (fun inner => filter.setQuery inner.document)
  | .attempt step, filter => (step.run filter).caught

/-- Takes the steps in order, up to the first that fails. -/
def Step.runAll : List Step → Draft → Outcome Draft
  | [], draft => .done draft
  | step :: rest, draft => (step.run draft).andThen (fun next => Step.runAll rest next)

def FilterStep.runAll : List FilterStep → Filter → Outcome Filter
  | [], filter => .done filter
  | step :: rest, filter => (step.run filter).andThen (fun next => FilterStep.runAll rest next)

end

theorem Step.runAll_eq (steps : List Step) (draft : Draft) :
    Step.runAll steps draft = Outcome.runAll Step.run steps draft := by
  induction steps generalizing draft with
  | nil => rfl
  | cons step rest ih =>
    rw [Step.runAll, Outcome.runAll]
    exact congrArg _ (funext ih)

theorem FilterStep.runAll_eq (steps : List FilterStep) (filter : Filter) :
    FilterStep.runAll steps filter = Outcome.runAll FilterStep.run steps filter := by
  induction steps generalizing filter with
  | nil => rfl
  | cons step rest ih =>
    rw [FilterStep.runAll, Outcome.runAll]
    exact congrArg _ (funext ih)

/-- Builds the document of a procedure, or gives the error that ended it. -/
def build (procedure : List Step) : Except QueryError Document :=
  (Step.runAll procedure .root).result Draft.document

end SearchQuery
