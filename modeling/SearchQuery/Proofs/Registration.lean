import SearchQuery.Proofs.Host

/-!
# Aggregations are registered once

The first `aggregate` call whose body succeeds gives the `aggs` clause its content and its place.
Until then every body is run, and one that fails leaves nothing. After that no body is run. Nothing
else reaches the clause.
-/

namespace SearchQuery

open Entries

def Call.aggregation? : Call → Option (List AggregationStep)
  | .aggregate body => some body
  | _ => none

/-- An `aggregate` call with this body fails, unless an earlier call has succeeded. -/
def AggregationStep.Fails (body : List AggregationStep) : Prop := (runAll body []).error ≠ none

/-- What the first body registers that does not fail. -/
def firstRegistered (bodies : List (List AggregationStep)) : Option (List Aggregation) :=
  bodies.findSome? (fun body => (collectAggregations body).toOption)

theorem firstRegistered_eq_none {bodies : List (List AggregationStep)} :
    firstRegistered bodies = none ↔ ∀ body ∈ bodies, AggregationStep.Fails body := by
  have hfails : ∀ body,
      (collectAggregations body).toOption = none ↔ AggregationStep.Fails body := by
    intro body
    unfold collectAggregations Outcome.result AggregationStep.Fails
    split <;> simp_all [Except.toOption]
  rw [firstRegistered, List.findSome?_eq_none_iff]
  exact forall₂_congr (fun body _ => hfails body)

theorem Call.aggregation?_eq_some {call : Call} {body : List AggregationStep}
    (h : call.aggregation? = some body) : call = .aggregate body := by
  cases call with
  | aggregate other => rw [Option.some.inj h]
  | _ => cases h

theorem Call.key?_ne_aggs {call : Call} (h : call.aggregation? = none) (isRoot : Bool) :
    call.key? isRoot ≠ some "aggs" := by
  cases call with
  | aggregate => cases h
  | queryString | multiMatch => cases isRoot <;> simp [key?]
  | _ => simp [key?]

theorem Draft.hasAggregations_eq (draft : Draft) :
    draft.hasAggregations = (get? "aggs" draft.clauses).isSome := rfl

theorem Edit.get?_aggregations_apply (found : List Aggregation) (draft : Draft) :
    get? "aggs" ((Edit.aggregations found).apply draft).clauses =
      (get? "aggs" draft.clauses).or (some (.deferred (Aggregation.clause found))) := by
  rw [apply, Draft.hasAggregations_eq]
  cases hold : get? "aggs" draft.clauses with
  | none =>
    rw [if_neg (by simp)]
    exact get?_update_self _ _ _
  | some old =>
    rw [if_pos Option.isSome_some]
    exact hold

theorem Call.run_aggregate {draft : Draft} (h : draft.hasAggregations = false)
    (body : List AggregationStep) :
    (Call.aggregate body).run draft =
      (AggregationStep.runAll body []).into draft (fun found => draft.setAggregations found) := by
  rw [Call.run, h]
  exact if_neg Bool.false_ne_true

namespace Host

variable {α σ : Type}

/-- The body of the `aggregate` call that a step makes. -/
def aggregation? (host : Host α σ) (step : α) : Option (List AggregationStep) :=
  (host.call? step).bind Call.aggregation?

/-- What becomes of the `aggregate` calls of a run, and of the clause. -/
structure RegistersOnce (host : Host α σ) (start : σ) (steps : List α)
    (finished : Entries Document) : Prop where
  /-- The clause is that of the first body that succeeds. -/
  clause : get? "aggs" finished = (firstRegistered (steps.filterMap host.aggregation?)).map
    (fun found => (Aggregation.clause found).resolve)
  /-- There is no clause exactly if every body fails. -/
  absent : "aggs" ∉ keys finished ↔
    ∀ body ∈ steps.filterMap host.aggregation?, AggregationStep.Fails body
  /-- Up to the first that succeeds every body is run, and nothing comes of one that fails. -/
  run : ∀ before step after body, steps = before ++ step :: after →
    host.aggregation? step = some body →
    firstRegistered (before.filterMap host.aggregation?) = none →
    let state := host.reached start before
    ((AggregationStep.runAll body []).into state
      (fun found => host.setDraft ((host.draft state).setAggregations found) state)).UpToCatches
      (host.run step state)
  /-- The first that succeeds adds the clause after those that are there, where it stays. -/
  place : ∀ before step after body, steps = before ++ step :: after →
    host.aggregation? step = some body →
    firstRegistered (before.filterMap host.aggregation?) = none →
    ¬ AggregationStep.Fails body →
    keys (host.draft (host.reached start before)).clauses ++ ["aggs"] <+: keys finished
  /-- From then on no body is run. -/
  ignored : ∀ before step after body, steps = before ++ step :: after →
    host.aggregation? step = some body →
    firstRegistered (before.filterMap host.aggregation?) ≠ none →
    (Outcome.done (host.reached start before)).UpToCatches
      (host.run step (host.reached start before))
  /-- No other step creates the clause, changes it or removes it. -/
  others : ∀ step state, host.aggregation? step = none →
    get? "aggs" (host.draft (host.run step state).state).clauses =
      get? "aggs" (host.draft state).clauses
  /-- Nor does a field. -/
  fields : get? "aggs" (host.draft (host.reached start steps)).allClauses =
    get? "aggs" (host.draft (host.reached start steps)).clauses

/-! ## The clause under steps -/

variable {host : Host α σ} {start : σ} {steps before after : List α} {step : α}
  {body : List AggregationStep}

theorem call?_of_aggregation? (h : host.aggregation? step = some body) :
    host.call? step = some (.aggregate body) := by
  obtain ⟨call, hcall, hbody⟩ := Option.bind_eq_some_iff.1 h
  rw [hcall, call.aggregation?_eq_some hbody]

theorem get?_aggs_of_other (h : host.aggregation? step = none) (state : σ) :
    get? "aggs" (host.draft (host.run step state).state).clauses =
      get? "aggs" (host.draft state).clauses := by
  refine get?_run_of_ne (host.key?_ne (by decide) (fun call hcall => call.key?_ne_aggs ?_ _))
  exact Option.bind_eq_none_iff.1 h call hcall

/-- A clause that is there stays. Otherwise a body that succeeds adds one. -/
theorem get?_aggs_run (step : α) (state : σ) :
    get? "aggs" (host.draft (host.run step state).state).clauses =
      (get? "aggs" (host.draft state).clauses).or
        ((firstRegistered (host.aggregation? step).toList).map
          (fun found => .deferred (Aggregation.clause found))) := by
  cases hown : host.aggregation? step with
  | none =>
    rw [get?_aggs_of_other hown]
    exact Option.or_none.symm
  | some body =>
    rw [host.run_state, host.edit?_call (call?_of_aggregation? hown), Call.edit?,
      Option.toList_some, firstRegistered, List.findSome?_cons, List.findSome?_nil]
    cases (collectAggregations body).toOption with
    | none => exact Option.or_none.symm
    | some found => exact Edit.get?_aggregations_apply found (host.draft state)

theorem get?_aggs_reached (h : (Outcome.runAll host.run steps start).error = none) :
    get? "aggs" (host.draft (host.reached start steps)).clauses =
      (get? "aggs" (host.draft start).clauses).or
        ((firstRegistered (steps.filterMap host.aggregation?)).map
          (fun found => .deferred (Aggregation.clause found))) := by
  induction steps generalizing start with
  | nil => exact Option.or_none.symm
  | cons step rest ih =>
    rw [Outcome.runAll, Outcome.andThen_error_eq_none] at h
    rw [reached_cons h.1, ih h.2, get?_aggs_run, Option.or_assoc, ← Option.map_or,
      Outcome.filterMap_cons_toList, firstRegistered, firstRegistered, firstRegistered,
      List.findSome?_append]

/-! ## Runs that start without the clause -/

/-- Where all bodies have failed there is no clause, even if the run has ended in an error. -/
theorem hasAggregations_of_fails
    (h : ∀ body ∈ steps.filterMap host.aggregation?, AggregationStep.Fails body)
    (hstart : (host.draft start).hasAggregations = false) :
    (host.draft (host.reached start steps)).hasAggregations = false := by
  refine Outcome.runAll_induction (P := fun next => (host.draft next).hasAggregations = false)
    hstart (fun step hstep next hnext => ?_)
  have hfails : firstRegistered (host.aggregation? step).toList = none := by
    refine firstRegistered_eq_none.2 (fun body hbody => h body ?_)
    exact List.mem_filterMap.2 ⟨step, hstep, Option.mem_toList.1 hbody⟩
  rw [Draft.hasAggregations_eq] at hnext ⊢
  rw [get?_aggs_run, hfails, Option.map_none, Option.or_none, hnext]

section

variable (hstart : get? "aggs" (host.draft start).clauses = none)
  (hbefore : (Outcome.runAll host.run before start).error = none)

include hstart hbefore

theorem hasAggregations_reached :
    (host.draft (host.reached start before)).hasAggregations =
      (firstRegistered (before.filterMap host.aggregation?)).isSome := by
  rw [Draft.hasAggregations_eq, get?_aggs_reached hbefore, hstart, Option.none_or,
    Option.isSome_map]

theorem run_first (hbody : host.aggregation? step = some body)
    (hfirst : firstRegistered (before.filterMap host.aggregation?) = none) :
    let state := host.reached start before
    ((AggregationStep.runAll body []).into state
      (fun found => host.setDraft ((host.draft state).setAggregations found) state)).UpToCatches
      (host.run step state) := by
  intro state
  have hgate : (host.draft state).hasAggregations = false := by
    rw [hasAggregations_reached hstart hbefore, hfirst]
    rfl
  have hcall := host.run_call (call?_of_aggregation? hbody) state
  rwa [Call.run_aggregate hgate, Outcome.map_into, host.setDraft_draft] at hcall

theorem run_ignored (hbody : host.aggregation? step = some body)
    (hfirst : firstRegistered (before.filterMap host.aggregation?) ≠ none) :
    (Outcome.done (host.reached start before)).UpToCatches
      (host.run step (host.reached start before)) := by
  have hgate : (host.draft (host.reached start before)).hasAggregations = true := by
    rw [hasAggregations_reached hstart hbefore]
    exact Option.isSome_iff_ne_none.2 hfirst
  have hcall := host.run_call (call?_of_aggregation? hbody) (host.reached start before)
  rwa [Call.run, if_pos hgate, Outcome.map_done, host.setDraft_draft] at hcall

/-- A new clause comes last. -/
theorem keys_run_first (hbody : host.aggregation? step = some body)
    (hfirst : firstRegistered (before.filterMap host.aggregation?) = none)
    (hsucceeds : ¬ AggregationStep.Fails body) :
    keys (host.draft (host.run step (host.reached start before)).state).clauses =
      keys (host.draft (host.reached start before)).clauses ++ ["aggs"] := by
  have hnone : get? "aggs" (host.draft (host.reached start before)).clauses = none := by
    rw [get?_aggs_reached hbefore, hstart, hfirst]
    rfl
  obtain ⟨found, hfound⟩ : ∃ found, collectAggregations body = .ok found :=
    ⟨_, Outcome.result_eq_ok.2 ⟨Decidable.not_not.1 hsucceeds, rfl⟩⟩
  have hedit : host.edit? step = some (.aggregations found) := by
    rw [host.edit?_call (call?_of_aggregation? hbody), Call.edit?, hfound]
    rfl
  rw [host.run_state, hedit, Option.elim_some, Edit.apply, Draft.hasAggregations_eq, hnone]
  exact keys_insert_of_get? hnone _

end

theorem registersOnce (hsound : (host.draft start).Sound)
    (hstart : get? "aggs" (host.draft start).clauses = none)
    (h : (Outcome.runAll host.run steps start).error = none) :
    host.RegistersOnce start steps (host.finished start steps) := by
  have hfields : get? "aggs" (host.draft (host.reached start steps)).allClauses =
      get? "aggs" (host.draft (host.reached start steps)).clauses :=
    host.get?_allClauses start steps hsound .aggs nofun nofun
  have hclause : get? "aggs" (host.finished start steps) =
      (firstRegistered (steps.filterMap host.aggregation?)).map
        (fun found => (Aggregation.clause found).resolve) := by
    rw [finished, Value.get?_resolveEntries, hfields, get?_aggs_reached h, hstart, Option.none_or,
      Option.map_map]
    rfl
  refine ⟨hclause, ?_, ?_, ?_, ?_, fun _ state hother => get?_aggs_of_other hother state, hfields⟩
  · rw [← get?_eq_none_iff, hclause, Option.map_eq_none_iff, firstRegistered_eq_none]
  · rintro before step after body rfl hbody hfirst
    exact run_first hstart (Outcome.error_of_append h) hbody hfirst
  · rintro before step after body rfl hbody hfirst hsucceeds
    rw [← keys_run_first hstart (Outcome.error_of_append h) hbody hfirst hsucceeds]
    exact host.keys_prefix_finished start h
  · rintro before step after body rfl hbody hfirst
    exact run_ignored hstart (Outcome.error_of_append h) hbody hfirst

end Host

/-- In a draft and in a filter the first `aggregate` call whose body succeeds is the only one that
counts. -/
theorem first_aggregation_counts :
    (∀ (isRoot : Bool) (steps : List Step), (Step.runAll steps { isRoot := isRoot }).error = none →
      Step.host.RegistersOnce { isRoot := isRoot } steps
        (Step.runAll steps { isRoot := isRoot }).state.clauseDocument.entries) ∧
    (∀ (steps : List FilterStep) (d : Document), buildFilter steps = .ok d →
      FilterStep.host.RegistersOnce {} steps
        ((get? "filter" d.entries).elim [] Document.entries)) := by
  constructor
  · intro isRoot steps h
    rw [Step.runAll_eq] at h
    rw [← Step.finished_eq]
    exact Host.registersOnce (Draft.sound_new isRoot) rfl h
  · intro steps d h
    have herror := (Outcome.result_eq_ok.1 h).1
    rw [FilterStep.runAll_eq] at herror
    rw [← FilterStep.finished_eq h]
    exact Host.registersOnce (Draft.sound_new false) rfl herror

/-- The first call fails and is caught, the second adds the clause after the one that is there, and
the body of the third is not run, so that it cannot fail. -/
theorem first_aggregation_counts_country :
    let failing : List AggregationStep := [.metric .min "age" [], .fail (.usage .nestedFilter)]
    let country : List AggregationStep := [.metric .terms "country" []]
    let steps : List Step :=
      [ .attempt (.call (.aggregate failing)), .call (.queryString "rust" (.object [])),
        .call (.field "status" [.is (.string "active")]), .call (.aggregate country),
        .filter [], .call (.aggregate failing) ]
    let narrowing : List FilterStep :=
      [.call (.aggregate country), .query [], .attempt (.call (.aggregate failing))]
    let aggs : Document := .object
      [("country_terms", .object [("terms", .object [("field", .string "country")])])]
    let filter : Document := .object
      [("query", .object []), ("filter", .object [("aggs", aggs)])]
    ((Step.runAll steps { isRoot := false }).error = none ∧
      keys (Step.runAll steps { isRoot := false }).state.clauseDocument.entries =
        ["query_string", "aggs", "filtered", "term"] ∧
      Step.host.RegistersOnce { isRoot := false } steps
        (Step.runAll steps { isRoot := false }).state.clauseDocument.entries) ∧
    (buildFilter narrowing = .ok filter ∧
      FilterStep.host.RegistersOnce {} narrowing [("aggs", aggs)]) := by
  intro failing country steps narrowing aggs filter
  have herror : (Step.runAll steps { isRoot := false }).error = none := rfl
  have hfilter : buildFilter narrowing = .ok filter := rfl
  exact ⟨⟨herror, rfl, first_aggregation_counts.1 false steps herror⟩,
    hfilter, first_aggregation_counts.2 narrowing filter hfilter⟩

end SearchQuery
