import SearchQuery.Proofs.Registration

/-!
# Failures leave no trace

A call that fails leaves the draft or filter it was made on as it was. So a failure that is caught can
be deleted from a procedure, at any depth, and the procedure builds the same document.
-/

namespace SearchQuery

open Entries

/-! ## What a failing call leaves -/

namespace Outcome

variable {σ τ α : Type}

theorem ofExcept_map_error {state : σ} {checked : Except QueryError α} {store : α → σ}
    (h : (ofExcept state (checked.map store)).error ≠ none) : checked.toOption = none := by
  cases checked with
  | ok a => exact absurd rfl h
  | error error => rfl

theorem into_error_result {inner : Outcome τ} {outer : σ} {store : τ → σ}
    (h : (inner.into outer store).error ≠ none) (finish : τ → α) :
    (inner.result finish).toOption = none := by
  rw [into_error] at h
  unfold result
  split
  · rfl
  · rename_i hnone
    exact absurd hnone h

end Outcome

def FilterStep.declaration? : FilterStep → Option (String × List FieldStep)
  | .call inner => (Step.call inner).declaration?
  | .filter _ => none
  | .draftFilter _ => none
  | .query _ => none
  | .attempt step => step.declaration?

theorem Call.edit?_of_error {call : Call} {draft : Draft} (h : (Step.call call).declaration? = none)
    (herror : (call.run draft).error ≠ none) : call.edit? = none := by
  cases call with
  | queryString | multiMatch | sort =>
    rw [run] at herror
    rw [edit?, Outcome.ofExcept_map_error herror, Option.map_none]
  | group occur body =>
    rw [run] at herror
    rw [edit?, buildGroup, Outcome.into_error_result herror, Option.map_none]
  | field name steps => cases h
  | named name arguments steps =>
    rw [edit?]
    unfold Step.declaration? at h
    cases hname : (resolveName name arguments).toOption with
    | none => rfl
    | some name => simp [hname] at h
  | aggregate body =>
    rw [run] at herror
    split at herror
    · exact absurd rfl herror
    · rw [edit?, collectAggregations, Outcome.into_error_result herror, Option.map_none]
  | fail | note | probe => rfl

theorem Step.edit?_of_error {draft : Draft} : {step : Step} → step.declaration? = none →
    (step.run draft).error ≠ none → step.edit? = none
  | .call _, h, herror => Call.edit?_of_error h herror
  | .filter body, _, herror => by
    rw [run] at herror
    rw [edit?, buildFilter, Outcome.into_error_result herror, Option.map_none]
  | .attempt _, _, herror => absurd rfl herror

theorem FilterStep.edit?_of_error {filter : Filter} : {step : FilterStep} →
    step.declaration? = none → (step.run filter).error ≠ none →
      step.edit? = none ∧ step.query? = none
  | .call _, h, herror => ⟨Call.edit?_of_error h herror, rfl⟩
  | .filter _, _, _ => ⟨rfl, rfl⟩
  | .draftFilter body, _, herror => by
    rw [run] at herror
    rw [edit?, buildFilter, Outcome.into_error_result herror]
    exact ⟨rfl, rfl⟩
  | .query body, _, herror => by
    rw [run] at herror
    rw [edit?, query?, build, Outcome.into_error_result herror]
    exact ⟨rfl, rfl⟩
  | .attempt _, _, herror => absurd rfl herror

-- That it fails on one draft is enough: it leaves all others alone too.
theorem Step.run_of_error {step : Step} {draft : Draft} (h : step.declaration? = none)
    (herror : (step.run draft).error ≠ none) (other : Draft) : (step.run other).state = other := by
  rw [run_state, edit?_of_error h herror]
  rfl

theorem FilterStep.run_of_error {step : FilterStep} {filter : Filter}
    (h : step.declaration? = none) (herror : (step.run filter).error ≠ none) (other : Filter) :
    (step.run other).state = other := by
  obtain ⟨hedit, hquery⟩ := edit?_of_error h herror
  rw [run_state, hedit, hquery]
  rfl

/-! ## Procedures with a failure deleted -/

/-- A step that fails, caught once or more often. -/
inductive Caught {α : Type} (attempt : α → α) (Fails : α → Prop) : α → Prop where
  | once {step : α} (fails : Fails step) : Caught attempt Fails (attempt step)
  | again {step : α} (caught : Caught attempt Fails step) : Caught attempt Fails (attempt step)

def FieldStep.CaughtFailure : FieldStep → Prop :=
  Caught .attempt (fun step => ∃ field, (step.run field).error ≠ none)

/-- A field stays declared when a step on it fails, so a declaration is not among these. -/
def Step.CaughtFailure : Step → Prop :=
  Caught .attempt (fun step => step.declaration? = none ∧ ∃ draft, (step.run draft).error ≠ none)

def FilterStep.CaughtFailure : FilterStep → Prop :=
  Caught .attempt (fun step => step.declaration? = none ∧ ∃ filter, (step.run filter).error ≠ none)

inductive FieldStep.Prunes : List FieldStep → List FieldStep → Prop where
  | here {step : FieldStep} {rest : List FieldStep} (caught : step.CaughtFailure) :
      Prunes (step :: rest) rest
  | there {step : FieldStep} {rest shorter : List FieldStep} (prunes : Prunes rest shorter) :
      Prunes (step :: rest) (step :: shorter)

mutual

/-- One failure that was caught is deleted from the body of a call. -/
inductive Call.Prunes : Call → Call → Prop where
  | group (occur : Occur) {body shorter : List Step} (prunes : Step.ListPrunes body shorter) :
      Call.Prunes (.group occur body) (.group occur shorter)
  | field (name : String) {steps shorter : List FieldStep}
      (prunes : FieldStep.Prunes steps shorter) :
      Call.Prunes (.field name steps) (.field name shorter)
  | named (name : String) (arguments : List Document) {steps shorter : List FieldStep}
      (prunes : FieldStep.Prunes steps shorter) :
      Call.Prunes (.named name arguments steps) (.named name arguments shorter)

inductive Step.Prunes : Step → Step → Prop where
  | call {inner shorter : Call} (prunes : Call.Prunes inner shorter) :
      Step.Prunes (.call inner) (.call shorter)
  | filter {body shorter : List FilterStep} (prunes : FilterStep.ListPrunes body shorter) :
      Step.Prunes (.filter body) (.filter shorter)
  | attempt {step shorter : Step} (prunes : Step.Prunes step shorter) :
      Step.Prunes (.attempt step) (.attempt shorter)

inductive FilterStep.Prunes : FilterStep → FilterStep → Prop where
  | call {inner shorter : Call} (prunes : Call.Prunes inner shorter) :
      FilterStep.Prunes (.call inner) (.call shorter)
  | filter {body shorter : List FilterStep} (prunes : FilterStep.ListPrunes body shorter) :
      FilterStep.Prunes (.filter body) (.filter shorter)
  | draftFilter {body shorter : List FilterStep} (prunes : FilterStep.ListPrunes body shorter) :
      FilterStep.Prunes (.draftFilter body) (.draftFilter shorter)
  | query {body shorter : List Step} (prunes : Step.ListPrunes body shorter) :
      FilterStep.Prunes (.query body) (.query shorter)
  | attempt {step shorter : FilterStep} (prunes : FilterStep.Prunes step shorter) :
      FilterStep.Prunes (.attempt step) (.attempt shorter)

/-- One failure that was caught is deleted from the steps, or from the body of one of them. -/
inductive Step.ListPrunes : List Step → List Step → Prop where
  | here {step : Step} {rest : List Step} (caught : step.CaughtFailure) :
      Step.ListPrunes (step :: rest) rest
  | there {step : Step} {rest shorter : List Step} (prunes : Step.ListPrunes rest shorter) :
      Step.ListPrunes (step :: rest) (step :: shorter)
  | within {step shorter : Step} {rest : List Step} (prunes : Step.Prunes step shorter) :
      Step.ListPrunes (step :: rest) (shorter :: rest)

inductive FilterStep.ListPrunes : List FilterStep → List FilterStep → Prop where
  | here {step : FilterStep} {rest : List FilterStep} (caught : step.CaughtFailure) :
      FilterStep.ListPrunes (step :: rest) rest
  | there {step : FilterStep} {rest shorter : List FilterStep}
      (prunes : FilterStep.ListPrunes rest shorter) :
      FilterStep.ListPrunes (step :: rest) (step :: shorter)
  | within {step shorter : FilterStep} {rest : List FilterStep}
      (prunes : FilterStep.Prunes step shorter) :
      FilterStep.ListPrunes (step :: rest) (shorter :: rest)

end

/-! ## Deleting changes nothing -/

namespace Outcome

variable {σ τ α : Type}

theorem Agrees.andThen {first second : Outcome σ} (h : Agrees first second)
    {next other : σ → Outcome σ} (hnext : ∀ state, Agrees (next state) (other state)) :
    Agrees (first.andThen next) (second.andThen other) :=
  Related.andThen h (fun _ => h.1 ▸ hnext first.state)

theorem Agrees.into {inner other : Outcome τ} (h : Agrees inner other) (outer : σ)
    (store : τ → σ) : Agrees (inner.into outer store) (other.into outer store) :=
  Related.into h.2 rfl (fun _ => congrArg store h.1)

theorem Agrees.caught {first second : Outcome σ} (h : Agrees first second) :
    Agrees first.caught second.caught := Related.caught h

theorem andThen_agrees_of_done {first : Outcome σ} {state : σ} (h : Agrees first (done state))
    (next : σ → Outcome σ) : Agrees (first.andThen next) (next state) := by
  have hnext := andThen_agrees h.2 next
  rwa [h.1] at hnext

end Outcome

open Outcome (Agrees)

/-- If failing leaves the state alone, failing and being caught does nothing at all. -/
theorem Caught.agrees_done {α σ : Type} {attempt : α → α} {Fails : α → Prop}
    {run : α → σ → Outcome σ} (hattempt : ∀ step state, run (attempt step) state =
      (run step state).caught) (hfails : ∀ step state, Fails step → (run step state).state = state)
    {step : α} (h : Caught attempt Fails step) (state : σ) :
    Agrees (run step state) (.done state) := by
  induction h with
  | @once step fails =>
    rw [hattempt]
    exact ⟨hfails step state fails, rfl⟩
  | @again step _ ih =>
    rw [hattempt]
    exact ⟨ih.1, rfl⟩

theorem FieldStep.CaughtFailure.agrees_done {step : FieldStep} (h : step.CaughtFailure)
    (field : Field) : Agrees (step.run field) (.done field) := by
  refine Caught.agrees_done (fun _ _ => rfl) ?_ h field
  rintro step field ⟨other, herror⟩
  exact run_of_error herror field

theorem Step.CaughtFailure.agrees_done {step : Step} (h : step.CaughtFailure) (draft : Draft) :
    Agrees (step.run draft) (.done draft) := by
  refine Caught.agrees_done (fun _ _ => by rw [Step.run]) ?_ h draft
  rintro step draft ⟨hdecl, other, herror⟩
  exact run_of_error hdecl herror draft

theorem FilterStep.CaughtFailure.agrees_done {step : FilterStep} (h : step.CaughtFailure)
    (filter : Filter) : Agrees (step.run filter) (.done filter) := by
  refine Caught.agrees_done (fun _ _ => by rw [FilterStep.run]) ?_ h filter
  rintro step filter ⟨hdecl, other, herror⟩
  exact run_of_error hdecl herror filter

theorem FieldStep.Prunes.agrees {steps shorter : List FieldStep} (h : Prunes steps shorter)
    (field : Field) : Agrees (runAll steps field) (runAll shorter field) := by
  induction h generalizing field with
  | here caught => exact Outcome.andThen_agrees_of_done (caught.agrees_done field) _
  | there _ ih => exact (Agrees.refl _).andThen ih

theorem FieldStep.Prunes.declare {steps shorter : List FieldStep} (h : Prunes steps shorter)
    (name : String) (draft : Draft) :
    Agrees (draft.declare name steps) (draft.declare name shorter) := by
  have hfield := h.agrees (draft.newField name)
  exact ⟨congrArg (fun field => draft.addField field) hfield.1, hfield.2⟩

-- The induction is on the path to the call that is deleted.
mutual

theorem Call.Prunes.agrees {call shorter : Call} : call.Prunes shorter → (draft : Draft) →
    Agrees (call.run draft) (shorter.run draft)
  | .group occur prunes, draft => by
    rw [Call.run, Call.run]
    exact (prunes.agrees .group).into draft _
  | .field name prunes, draft => by
    rw [Call.run, Call.run]
    exact prunes.declare name draft
  | .named name arguments prunes, draft => by
    rw [Call.run, Call.run]
    split
    · exact prunes.declare _ draft
    · exact .refl _

theorem Step.Prunes.agrees {step shorter : Step} : step.Prunes shorter → (draft : Draft) →
    Agrees (step.run draft) (shorter.run draft)
  | .call prunes, draft => by
    rw [Step.run, Step.run]
    exact prunes.agrees draft
  | .filter prunes, draft => by
    rw [Step.run, Step.run]
    exact (prunes.agrees {}).into draft _
  | .attempt prunes, draft => by
    rw [Step.run, Step.run]
    exact (prunes.agrees draft).caught

theorem FilterStep.Prunes.agrees {step shorter : FilterStep} : step.Prunes shorter →
    (filter : Filter) → Agrees (step.run filter) (shorter.run filter)
  | .call prunes, filter => by
    have hcall := prunes.agrees filter.draft
    rw [FilterStep.run, FilterStep.run]
    exact ⟨congrArg (fun draft => filter.setDraft draft) hcall.1, hcall.2⟩
  | .filter _, filter => .refl _
  | .draftFilter prunes, filter => by
    rw [FilterStep.run, FilterStep.run]
    exact (prunes.agrees {}).into filter _
  | .query prunes, filter => by
    rw [FilterStep.run, FilterStep.run]
    exact (prunes.agrees .root).into filter _
  | .attempt prunes, filter => by
    rw [FilterStep.run, FilterStep.run]
    exact (prunes.agrees filter).caught

theorem Step.ListPrunes.agrees {steps shorter : List Step} : Step.ListPrunes steps shorter →
    (draft : Draft) → Agrees (Step.runAll steps draft) (Step.runAll shorter draft)
  | .here caught, draft => by
    rw [Step.runAll]
    exact Outcome.andThen_agrees_of_done (caught.agrees_done draft) _
  | .there prunes, draft => by
    rw [Step.runAll, Step.runAll]
    exact (Agrees.refl _).andThen prunes.agrees
  | .within prunes, draft => by
    rw [Step.runAll, Step.runAll]
    exact (prunes.agrees draft).andThen (fun _ => .refl _)

theorem FilterStep.ListPrunes.agrees {steps shorter : List FilterStep} :
    FilterStep.ListPrunes steps shorter → (filter : Filter) →
    Agrees (FilterStep.runAll steps filter) (FilterStep.runAll shorter filter)
  | .here caught, filter => by
    rw [FilterStep.runAll]
    exact Outcome.andThen_agrees_of_done (caught.agrees_done filter) _
  | .there prunes, filter => by
    rw [FilterStep.runAll, FilterStep.runAll]
    exact (Agrees.refl _).andThen prunes.agrees
  | .within prunes, filter => by
    rw [FilterStep.runAll, FilterStep.runAll]
    exact (prunes.agrees filter).andThen (fun _ => .refl _)

end

/-! ## Aggregations after failures -/

def Step.aggregation? : Step → Option (List AggregationStep)
  | .call inner => inner.aggregation?
  | .filter _ => none
  | .attempt step => step.aggregation?

def FilterStep.aggregation? : FilterStep → Option (List AggregationStep)
  | .call inner => inner.aggregation?
  | .filter _ => none
  | .draftFilter _ => none
  | .query _ => none
  | .attempt step => step.aggregation?

theorem Step.host_aggregation? (step : Step) :
    Step.host.aggregation? step = step.aggregation? := by
  cases step with
  | call | filter => rfl
  | attempt inner => exact inner.host_aggregation?

theorem FilterStep.host_aggregation? (step : FilterStep) :
    FilterStep.host.aggregation? step = step.aggregation? := by
  cases step with
  | call | filter | draftFilter | query => rfl
  | attempt inner => exact inner.host_aggregation?

theorem Step.hasAggregations_runAll {steps : List Step} {draft : Draft}
    (h : ∀ body ∈ steps.filterMap Step.aggregation?, AggregationStep.Fails body)
    (hdraft : draft.hasAggregations = false) :
    (Step.runAll steps draft).state.hasAggregations = false := by
  rw [← funext Step.host_aggregation?] at h
  rw [Step.runAll_eq]
  exact Host.hasAggregations_of_fails h hdraft

theorem FilterStep.hasAggregations_runAll {steps : List FilterStep} {filter : Filter}
    (h : ∀ body ∈ steps.filterMap FilterStep.aggregation?, AggregationStep.Fails body)
    (hfilter : filter.draft.hasAggregations = false) :
    (FilterStep.runAll steps filter).state.draft.hasAggregations = false := by
  rw [← funext FilterStep.host_aggregation?] at h
  rw [FilterStep.runAll_eq]
  exact Host.hasAggregations_of_fails h hfilter

/-! ## The whole guarantee -/

/-- A call that fails leaves no trace. So a failure that is caught can be deleted from a procedure,
and after `aggregate` calls that all failed, the next one runs its body. -/
theorem failures_leave_no_trace :
    (∀ (step : Step) (draft : Draft), step.declaration? = none →
      (step.run draft).error ≠ none → (step.run draft).state = draft) ∧
    (∀ (step : FilterStep) (filter : Filter), step.declaration? = none →
      (step.run filter).error ≠ none → (step.run filter).state = filter) ∧
    (∀ (step : FieldStep) (field : Field),
      (step.run field).error ≠ none → (step.run field).state = field) ∧
    (∀ (procedure shorter : List Step), Step.ListPrunes procedure shorter → ∀ isRoot : Bool,
      (Step.runAll procedure { isRoot := isRoot }).result Draft.document =
        (Step.runAll shorter { isRoot := isRoot }).result Draft.document) ∧
    (∀ (isRoot : Bool) (steps : List Step) (body : List AggregationStep),
      (∀ earlier ∈ steps.filterMap Step.aggregation?, AggregationStep.Fails earlier) →
        let draft := (Step.runAll steps { isRoot := isRoot }).state
        (Call.aggregate body).run draft = (AggregationStep.runAll body []).into draft
          (fun found => draft.setAggregations found)) ∧
    (∀ (steps : List FilterStep) (body : List AggregationStep),
      (∀ earlier ∈ steps.filterMap FilterStep.aggregation?, AggregationStep.Fails earlier) →
        let draft := (FilterStep.runAll steps {}).state.draft
        (Call.aggregate body).run draft = (AggregationStep.runAll body []).into draft
          (fun found => draft.setAggregations found)) := by
  refine ⟨?_, ?_, ?_, ?_, ?_, ?_⟩
  · exact fun step draft h herror => step.run_of_error h herror draft
  · exact fun step filter h herror => step.run_of_error h herror filter
  · exact fun step field herror => step.run_of_error herror field
  · exact fun procedure shorter h isRoot => (h.agrees _).result _
  · intro isRoot steps body h draft
    exact Call.run_aggregate (Step.hasAggregations_runAll h rfl) body
  · intro steps body h draft
    exact Call.run_aggregate (FilterStep.hasAggregations_runAll h rfl) body

/-- A group that fails in the query of a filter, after steps that have succeeded. -/
theorem failures_leave_no_trace_nested :
    let failing : Step := .call (.group .must
      [ .call (.queryString "rust" (.object [])),
        .filter [.query [.call (.queryString "rust" (.string "fuzzy"))]] ])
    let query : FilterStep := .query [.call (.sort "created" (.object [])), failing]
    let options : FieldStep := .matchingWith (.string "rust") (.string "fuzzy")
    let title : Field := Draft.root.newField "title"
    let status : Step := .call (.field "status" [.is (.string "active")])
    let empty : List AggregationStep := [.register "max" "age" [], .fail (.usage .nestedFilter)]
    let later := (Step.runAll [.attempt (.call (.aggregate empty))] { isRoot := true }).state
    ((failing.run .root).error ≠ none ∧ (failing.run .root).state = .root) ∧
    ((query.run {}).error ≠ none ∧ (query.run {}).state = {}) ∧
    ((options.run title).error ≠ none ∧ (options.run title).state = title) ∧
    build [.call (.group .should [status, .attempt failing])] =
      build [.call (.group .should [status])] ∧
    AggregationStep.Fails empty ∧
    (Call.aggregate [.register "max" "age" []]).run later =
      (AggregationStep.runAll [.register "max" "age" []] []).into later
        (fun found => later.setAggregations found) := by
  intro failing query options title status empty later
  obtain ⟨hstep, hfilter, hfield, hprunes, hlater, -⟩ := failures_leave_no_trace
  have hfailing : (failing.run .root).error ≠ none := nofun
  have hquery : (query.run {}).error ≠ none := nofun
  have hoptions : (options.run title).error ≠ none := nofun
  have hempty : AggregationStep.Fails empty := nofun
  refine ⟨⟨hfailing, hstep _ _ rfl hfailing⟩, ⟨hquery, hfilter _ _ rfl hquery⟩,
    ⟨hoptions, hfield _ _ hoptions⟩, ?_, hempty, ?_⟩
  · exact hprunes _ _ (.within (.call (.group _ (.there (.here (.once ⟨rfl, _, hfailing⟩)))))) true
  · refine hlater true _ _ (fun earlier hearlier => ?_)
    rw [List.mem_singleton.1 hearlier]
    exact hempty

end SearchQuery
