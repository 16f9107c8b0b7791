import SearchQuery.Proofs.Outcome
import SearchQuery.Step.Run

/-!
# Edits: what a step leaves

A step that is run on a draft makes at most one change to it, and which one does not depend on the
draft. Only the error of a step does: an `aggregate` call that comes too late does not run its body.
So a run that succeeds is the list of its edits, and what all runs keep is shown edit by edit.
-/

namespace SearchQuery

/-! ## Bodies on their own -/

/-- The clauses of a body that is run in a group draft of its own. -/
def buildGroup (body : List Step) : Except QueryError Document :=
  (Step.runAll body .group).result Draft.document

def buildFilter (body : List FilterStep) : Except QueryError Document :=
  (FilterStep.runAll body {}).result Filter.document

def collectAggregations (body : List AggregationStep) : Except QueryError (List Aggregation) :=
  (AggregationStep.runAll body []).result id

/-! ## Edits of a draft -/

/-- A change that a step makes to the draft it is run on. -/
inductive Edit where
  | clause (key : String) (content : Value)
  | entry (occur : Occur) (item : Document)
  | declare (name : String) (steps : List FieldStep)
  | filtered (item : Document)
  /-- Counts only if it is the first. -/
  | aggregations (found : List Aggregation)
  | sort (key : String) (criterion : Value)

namespace Edit

def apply : Edit → Draft → Draft
  | .clause key content, draft => draft.addClause key content
  | .entry occur item, draft => draft.addToGroup occur item
  | .declare name steps, draft =>
    draft.addField (FieldStep.runAll steps (draft.newField name)).state
  | .filtered item, draft => draft.addFiltered item
  | .aggregations found, draft =>
    if draft.hasAggregations then draft else draft.setAggregations found
  | .sort key criterion, draft => draft.addSort key criterion

def applyAll (edits : List Edit) (draft : Draft) : Draft :=
  edits.foldl (fun draft edit => edit.apply draft) draft

@[simp] theorem applyAll_nil (draft : Draft) : applyAll [] draft = draft := rfl

@[simp] theorem applyAll_cons (edit : Edit) (rest : List Edit) (draft : Draft) :
    applyAll (edit :: rest) draft = applyAll rest (edit.apply draft) := rfl

@[simp] theorem isRoot_apply (edit : Edit) (draft : Draft) :
    (edit.apply draft).isRoot = draft.isRoot := by
  cases edit with
  | clause key content =>
    simp only [apply, Draft.addClause]
    split <;> rfl
  | aggregations found =>
    simp only [apply]
    split <;> rfl
  | entry | declare | filtered | sort => rfl

theorem applyAll_induction {P : Draft → Prop} {edits : List Edit} {draft : Draft} (h : P draft)
    (hstep : ∀ edit ∈ edits, ∀ draft, P draft → P (edit.apply draft)) :
    P (applyAll edits draft) := by
  induction edits generalizing draft with
  | nil => exact h
  | cons edit rest ih =>
    rw [List.forall_mem_cons] at hstep
    exact ih (hstep.1 draft h) hstep.2

@[simp] theorem isRoot_applyAll (edits : List Edit) (draft : Draft) :
    (applyAll edits draft).isRoot = draft.isRoot :=
  applyAll_induction (P := fun next => next.isRoot = draft.isRoot) rfl
    (fun edit _ next h => by rw [isRoot_apply, h])

end Edit

/-! ## The edit of a step -/

def Call.edit? : Call → Option Edit
  | .queryString text options =>
    (SearchQuery.queryString text options).toOption.map (.clause "query_string")
  | .multiMatch text fields options =>
    (SearchQuery.multiMatch text fields options).toOption.map (.clause "multi_match")
  | .group occur body => (buildGroup body).toOption.map (.entry occur)
  | .field name steps => some (.declare name steps)
  | .named name arguments steps =>
    (resolveName name arguments).toOption.map (fun name => .declare name steps)
  | .aggregate body => (collectAggregations body).toOption.map .aggregations
  | .sort key criteria => (sortCriterion criteria).toOption.map (.sort key)
  | .fail _ => none
  | .note _ => none
  | .probe => none

def Step.edit? : Step → Option Edit
  | .call inner => inner.edit?
  | .filter body => (buildFilter body).toOption.map .filtered
  | .attempt step => step.edit?

/-- The edit of the draft half. -/
def FilterStep.edit? : FilterStep → Option Edit
  | .call inner => inner.edit?
  | .filter _ => none
  | .draftFilter body => (buildFilter body).toOption.map .filtered
  | .query _ => none
  | .attempt step => step.edit?

def FilterStep.query? : FilterStep → Option Document
  | .call _ => none
  | .filter _ => none
  | .draftFilter _ => none
  | .query body => (build body).toOption
  | .attempt step => step.query?

theorem Call.run_state (call : Call) (draft : Draft) :
    (call.run draft).state = call.edit?.elim draft (fun edit => edit.apply draft) := by
  cases call with
  | queryString text options =>
    rw [Call.run, Call.edit?, Outcome.ofExcept_state, Option.elim_map]
    rfl
  | multiMatch text fields options =>
    rw [Call.run, Call.edit?, Outcome.ofExcept_state, Option.elim_map]
    rfl
  | group occur body =>
    rw [Call.run, Call.edit?, Option.elim_map]
    exact Outcome.into_state _ draft Draft.document (draft.addToGroup occur ·)
  | field name steps => rfl
  | named name arguments steps =>
    rw [Call.run, Call.edit?]
    split
    · rename_i h
      rw [h]
      rfl
    · rename_i h
      rw [h]
      rfl
  | aggregate body =>
    have hinto := Outcome.into_state (AggregationStep.runAll body []) draft id
      (fun found => draft.setAggregations found)
    rw [← collectAggregations] at hinto
    rw [Call.run, Call.edit?, Option.elim_map]
    cases hgate : draft.hasAggregations with
    | true => cases (collectAggregations body).toOption <;> simp [Edit.apply, hgate, Outcome.done]
    | false =>
      rw [if_neg Bool.false_ne_true]
      refine hinto.trans (congrArg _ (funext fun found => ?_))
      simp [Edit.apply, hgate]
  | sort key criteria =>
    rw [Call.run, Call.edit?, Outcome.ofExcept_state, Option.elim_map]
    rfl
  | fail | note | probe => rfl

theorem Step.run_state (step : Step) (draft : Draft) :
    (step.run draft).state = step.edit?.elim draft (fun edit => edit.apply draft) := by
  match step with
  | .call inner => exact inner.run_state draft
  | .filter body =>
    rw [Step.run, Step.edit?, Option.elim_map]
    exact Outcome.into_state _ draft Filter.document (draft.addFiltered ·)
  | .attempt inner => exact inner.run_state draft

theorem FilterStep.run_state (step : FilterStep) (filter : Filter) :
    (step.run filter).state =
      { draft := step.edit?.elim filter.draft (fun edit => edit.apply filter.draft)
        query := step.query?.or filter.query } := by
  match step with
  | .call inner =>
    rw [FilterStep.run, FilterStep.edit?, ← inner.run_state filter.draft]
    rfl
  | .filter _ => rfl
  | .draftFilter body =>
    have hinto := Outcome.into_state (FilterStep.runAll body {}) filter Filter.document
      (fun document => filter.setDraft (filter.draft.addFiltered document))
    rw [← buildFilter] at hinto
    rw [FilterStep.run, hinto, FilterStep.edit?]
    cases buildFilter body <;> rfl
  | .query body =>
    have hinto := Outcome.into_state (Step.runAll body .root) filter Draft.document filter.setQuery
    rw [← build] at hinto
    rw [FilterStep.run, hinto, FilterStep.query?]
    cases build body <;> rfl
  | .attempt inner => exact inner.run_state filter

theorem Step.isRoot_run (step : Step) (draft : Draft) :
    (step.run draft).state.isRoot = draft.isRoot := by
  rw [step.run_state]
  cases step.edit? with
  | none => rfl
  | some edit => exact edit.isRoot_apply draft

/-! ## Runs -/

theorem Step.isRoot_runAll (steps : List Step) (draft : Draft) :
    (Step.runAll steps draft).state.isRoot = draft.isRoot := by
  rw [Step.runAll_eq]
  exact Outcome.runAll_induction (P := fun next : Draft => next.isRoot = draft.isRoot) rfl
    (fun step _ next h => (step.isRoot_run next).trans h)

/-- A run that succeeds makes the edits of its steps, one after the other. -/
theorem Step.runAll_state {steps : List Step} {draft : Draft}
    (h : (Step.runAll steps draft).error = none) :
    (Step.runAll steps draft).state = Edit.applyAll (steps.filterMap Step.edit?) draft := by
  induction steps generalizing draft with
  | nil => rfl
  | cons step rest ih =>
    rw [Step.runAll, Outcome.andThen_error_eq_none] at h
    rw [Step.runAll, Outcome.andThen_state h.1, ih h.2, step.run_state]
    cases hedit : step.edit? with
    | none => rw [List.filterMap_cons_none hedit]; rfl
    | some edit => rw [List.filterMap_cons_some hedit]; rfl

/-- The two halves of a filter are edited apart. The query half is the last that was set. -/
theorem FilterStep.runAll_state {steps : List FilterStep} {filter : Filter}
    (h : (FilterStep.runAll steps filter).error = none) :
    (FilterStep.runAll steps filter).state =
      { draft := Edit.applyAll (steps.filterMap FilterStep.edit?) filter.draft
        query := (steps.filterMap FilterStep.query?).getLast?.or filter.query } := by
  induction steps generalizing filter with
  | nil => rfl
  | cons step rest ih =>
    rw [FilterStep.runAll, Outcome.andThen_error_eq_none] at h
    rw [FilterStep.runAll, Outcome.andThen_state h.1, ih h.2, step.run_state]
    congr 1
    · cases hedit : step.edit? with
      | none => rw [List.filterMap_cons_none hedit]; rfl
      | some edit => rw [List.filterMap_cons_some hedit]; rfl
    · cases hquery : step.query? with
      | none => rw [List.filterMap_cons_none hquery]; rfl
      | some query =>
        rw [List.filterMap_cons_some hquery, List.getLast?_cons]
        cases (rest.filterMap FilterStep.query?).getLast? <;> rfl

theorem buildGroup_eq_ok {body : List Step} {d : Document} (h : buildGroup body = .ok d) :
    d = (Edit.applyAll (body.filterMap Step.edit?) .group).document := by
  obtain ⟨herror, hd⟩ := Outcome.result_eq_ok.1 h
  rw [← hd, Step.runAll_state herror]

theorem buildGroup_eq_object {body : List Step} {d : Document} (h : buildGroup body = .ok d) :
    d = .object (Value.resolveEntries (Step.runAll body .group).state.allClauses) := by
  have hgroup : (Step.runAll body .group).state.isRoot = false := Step.isRoot_runAll body .group
  rw [← (Outcome.result_eq_ok.1 h).2, Draft.document, hgroup]
  rfl

theorem build_eq_ok {procedure : List Step} {d : Document} (h : build procedure = .ok d) :
    d = (Edit.applyAll (procedure.filterMap Step.edit?) .root).document := by
  obtain ⟨herror, hd⟩ := Outcome.result_eq_ok.1 h
  rw [← hd, Step.runAll_state herror]

theorem buildFilter_eq_ok {body : List FilterStep} {d : Document} (h : buildFilter body = .ok d) :
    d = Filter.document
      { draft := Edit.applyAll (body.filterMap FilterStep.edit?) .group
        query := (body.filterMap FilterStep.query?).getLast? } := by
  obtain ⟨herror, hd⟩ := Outcome.result_eq_ok.1 h
  rw [← hd, FilterStep.runAll_state herror, Option.or_none]

end SearchQuery
