import SearchQuery.Proofs.Explicit

/-!
# The two halves of a filter

A step on a filter reaches one half only. So the finished filter is the query that was set last, and
beside it what the other steps leave in a group of their own.
-/

namespace SearchQuery

open Entries

namespace FilterStep

/-- The step as one on the draft half alone. A filter call on the filter itself is refused, so it
has no place there. -/
def narrowing? : FilterStep → Option Step
  | .call inner => some (.call inner)
  | .filter _ => none
  | .draftFilter body => some (.filter body)
  | .query _ => none
  | .attempt step => step.narrowing?.map .attempt

def queryBody? : FilterStep → Option (List Step)
  | .call _ => none
  | .filter _ => none
  | .draftFilter _ => none
  | .query body => some body
  | .attempt step => step.queryBody?

end FilterStep

/-- The steps that narrow a filter, as its draft takes them. -/
def narrowingSteps (steps : List FilterStep) : List Step := steps.filterMap FilterStep.narrowing?

/-- The body of the last query. A query that fails and is caught does not count. -/
def lastQuery? (steps : List FilterStep) : Option (List Step) :=
  ((steps.filterMap FilterStep.queryBody?).filter (fun body => (build body).toOption.isSome)).getLast?

/-- Empty clauses leave no entry. -/
def narrowingHalf : Document → Entries Document
  | .object [] => []
  | clauses => [("filter", clauses)]

/-- The entries of what a body builds: its clauses, and its criteria if it has sorted. -/
def IsQueryHalf : Option (List Step) → Entries Document → Prop
  | none, entries => entries = []
  | some body, entries =>
    build body = .ok (.object entries) ∧ ∃ clauses, entries = ("query", clauses) :: sortEntry body

/-! ## The query half -/

theorem FilterStep.query?_eq (step : FilterStep) :
    step.query? = step.queryBody?.bind (fun body => (build body).toOption) := by
  cases step with
  | call | filter | draftFilter | query => rfl
  | attempt inner => exact inner.query?_eq

theorem getLast?_filterMap_eq {α β : Type} (f : α → Option β) (items : List α) :
    (items.filterMap f).getLast? = (items.filter (fun a => (f a).isSome)).getLast?.bind f := by
  induction items with
  | nil => rfl
  | cons a rest ih =>
    cases h : f a with
    | none => rw [List.filterMap_cons_none h, List.filter_cons_of_neg (by simp [h]), ih]
    | some b =>
      rw [List.filterMap_cons_some h, List.filter_cons_of_pos (by simp [h]), List.getLast?_cons,
        List.getLast?_cons, ih]
      cases hlast : (rest.filter (fun a => (f a).isSome)).getLast? with
      | none => exact h.symm
      | some last =>
        have hsome : (f last).isSome = true :=
          (List.mem_filter.1 (List.mem_of_getLast? hlast)).2
        obtain ⟨c, hc⟩ := Option.isSome_iff_exists.1 hsome
        simp [hc]

theorem getLast?_query? (steps : List FilterStep) :
    (steps.filterMap FilterStep.query?).getLast? =
      (lastQuery? steps).bind (fun body => (build body).toOption) := by
  rw [lastQuery?, ← getLast?_filterMap_eq, List.filterMap_filterMap]
  exact congrArg (fun f => (List.filterMap f steps).getLast?) (funext FilterStep.query?_eq)

theorem isQueryHalf_lastQuery? (steps : List FilterStep) :
    IsQueryHalf (lastQuery? steps)
      ((steps.filterMap FilterStep.query?).getLast?.elim [] Document.entries) := by
  rw [getLast?_query?]
  cases hlast : lastQuery? steps with
  | none => rfl
  | some body =>
    have hbuilt : (build body).toOption.isSome = true :=
      (List.mem_filter.1 (List.mem_of_getLast? hlast)).2
    cases hbuild : build body with
    | error error => simp [hbuild, Except.toOption] at hbuilt
    | ok d =>
      obtain ⟨herror, hd⟩ := Outcome.result_eq_ok.1 hbuild
      rw [document_runAll herror] at hd
      subst hd
      rw [Option.bind_some, hbuild]
      exact ⟨hbuild, _, rfl⟩

/-! ## The filter half -/

namespace FilterStep

theorem edit?_narrowing? (step : FilterStep) : step.narrowing?.bind Step.edit? = step.edit? := by
  cases step with
  | call | filter | draftFilter | query => rfl
  | attempt inner =>
    rw [narrowing?, Option.bind_map]
    exact inner.edit?_narrowing?

theorem error_narrowing? {step : FilterStep} {narrowing : Step}
    (h : step.narrowing? = some narrowing) (filter : Filter) :
    (narrowing.run filter.draft).error = (step.run filter).error := by
  cases step with
  | call inner =>
    obtain rfl := Option.some.inj h
    rw [Step.run, run]
  | draftFilter body =>
    obtain rfl := Option.some.inj h
    rw [Step.run, run, Outcome.into_error, Outcome.into_error]
  | filter | query => cases h
  | attempt inner =>
    obtain ⟨inner', -, rfl⟩ := Option.map_eq_some_iff.1 h
    rw [Step.run, run]
    rfl

theorem state_narrowing? {step : FilterStep} {narrowing : Step}
    (h : step.narrowing? = some narrowing) (filter : Filter) :
    (narrowing.run filter.draft).state = (step.run filter).state.draft := by
  rw [Step.run_state, run_state, ← edit?_narrowing?, h]
  rfl

theorem draft_run_of_narrowing?_eq_none {step : FilterStep} (h : step.narrowing? = none)
    (filter : Filter) : (step.run filter).state.draft = filter.draft := by
  rw [run_state, ← edit?_narrowing?, h]
  rfl

/-- The draft half of a run is a run of the narrowing steps alone. -/
theorem runAll_narrowingSteps {steps : List FilterStep} {filter : Filter}
    (h : (runAll steps filter).error = none) :
    (Step.runAll (narrowingSteps steps) filter.draft).error = none ∧
      (Step.runAll (narrowingSteps steps) filter.draft).state =
        (runAll steps filter).state.draft := by
  unfold narrowingSteps
  induction steps generalizing filter with
  | nil => exact ⟨rfl, rfl⟩
  | cons step rest ih =>
    rw [runAll, Outcome.andThen_error_eq_none] at h
    have hrest := ih h.2
    rw [runAll, Outcome.andThen_state h.1]
    cases hstep : step.narrowing? with
    | none =>
      rw [draft_run_of_narrowing?_eq_none hstep] at hrest
      rwa [List.filterMap_cons_none hstep]
    | some narrowing =>
      have herror := (error_narrowing? hstep filter).trans h.1
      rw [List.filterMap_cons_some hstep, Step.runAll, Outcome.andThen_error herror,
        Outcome.andThen_state herror, state_narrowing? hstep]
      exact hrest

end FilterStep

theorem buildGroup_narrowingSteps {steps : List FilterStep}
    (h : (FilterStep.runAll steps {}).error = none) :
    buildGroup (narrowingSteps steps) =
      .ok (FilterStep.runAll steps {}).state.draft.clauseDocument := by
  obtain ⟨herror, hstate⟩ := FilterStep.runAll_narrowingSteps h
  have hgroup := Step.isRoot_runAll (narrowingSteps steps) .group
  refine Outcome.result_eq_ok.2 ⟨herror, ?_⟩
  rw [Draft.document, hgroup, ← hstate]
  rfl

/-! ## Both halves -/

theorem Filter.document_eq_append {filter : Filter} {query : Entries Document}
    (hquery : filter.query.elim [] Document.entries = query) (hkey : "filter" ∉ keys query) :
    filter.document = .object (query ++ narrowingHalf filter.draft.clauseDocument) := by
  unfold Filter.document
  rw [hquery]
  have hclauses : filter.draft.clauseDocument =
      .object (Value.resolveEntries filter.draft.allClauses) := rfl
  cases hentries : Value.resolveEntries filter.draft.allClauses with
  | nil =>
    rw [hclauses, hentries]
    exact congrArg Document.object (List.append_nil query).symm
  | cons entry rest =>
    rw [hclauses, hentries]
    exact congrArg Document.object (update_of_not_mem hkey _)

theorem sublist_keys_sortEntry (procedure : List Step) :
    (keys (sortEntry procedure)).Sublist ["sort"] := by
  unfold sortEntry
  split
  · exact List.nil_sublist _
  · exact List.Sublist.refl _

theorem IsQueryHalf.sublist_keys {body? : Option (List Step)} {query : Entries Document}
    (h : IsQueryHalf body? query) : (keys query).Sublist ["query", "sort"] := by
  cases body? with
  | none =>
    rw [show query = [] from h]
    exact List.nil_sublist _
  | some body =>
    obtain ⟨-, clauses, rfl⟩ := h
    exact (sublist_keys_sortEntry body).cons_cons "query"

theorem sublist_keys_narrowingHalf (narrowing : Document) :
    (keys (narrowingHalf narrowing)).Sublist ["filter"] := by
  unfold narrowingHalf
  split
  · exact List.nil_sublist _
  · exact List.Sublist.refl _

theorem not_mem_keys_query (steps : List FilterStep) :
    "filter" ∉ keys ((steps.filterMap FilterStep.query?).getLast?.elim [] Document.entries) := by
  intro hmem
  have hkeys := (isQueryHalf_lastQuery? steps).sublist_keys
  exact absurd (hkeys.subset hmem) (by decide)

theorem buildFilter_eq_append {steps : List FilterStep} {d : Document}
    (h : buildFilter steps = .ok d) :
    d = .object ((steps.filterMap FilterStep.query?).getLast?.elim [] Document.entries ++
      narrowingHalf (FilterStep.runAll steps {}).state.draft.clauseDocument) := by
  obtain ⟨herror, hd⟩ := Outcome.result_eq_ok.1 h
  rw [← hd]
  refine Filter.document_eq_append ?_ (not_mem_keys_query steps)
  rw [FilterStep.runAll_state herror, Option.or_none]

/-- A finished filter is the query that was set last, and after it the clauses that the other steps
leave in a group of their own, unless there are none. No key of the one half is one of the other. -/
theorem filter_halves {steps : List FilterStep} {d : Document} (h : buildFilter steps = .ok d) :
    ∃ query narrowing, IsQueryHalf (lastQuery? steps) query ∧
      buildGroup (narrowingSteps steps) = .ok narrowing ∧
      d = .object (query ++ narrowingHalf narrowing) ∧
      (keys (query ++ narrowingHalf narrowing)).Sublist ["query", "sort", "filter"] := by
  have hquery := isQueryHalf_lastQuery? steps
  have hnarrowing := buildGroup_narrowingSteps (Outcome.result_eq_ok.1 h).1
  refine ⟨_, _, hquery, hnarrowing, buildFilter_eq_append h, ?_⟩
  rw [keys_append]
  exact hquery.sublist_keys.append (sublist_keys_narrowingHalf _)

/-- Two queries of which the last counts, a third that fails and is caught, and a sort call on the
filter itself, which sorts nothing. -/
theorem filter_halves_interleaved :
    let steps : List FilterStep :=
      [ .query [.call (.field "age" [.lt (.string "k")])],
        .call (.field "status" [.is (.string "active")]),
        .query [.call (.sort "created" (.object [])), .call (.queryString "rust" (.object []))],
        .attempt (.query [.call (.queryString "rust" (.string "fuzzy"))]),
        .attempt (.filter []),
        .call (.sort "age" (.object [])) ]
    let query : Entries Document :=
      [ ("query", .object [("bool", .object [("must", .array
          [.object [("query_string", .object [("query", .string "rust")])]])])]),
        ("sort", .array [.object [("created", .object [])]]) ]
    let narrowing : Document := .object [("term", .object [("status", .string "active")])]
    buildFilter steps = .ok (.object (query ++ [("filter", narrowing)])) ∧
      ∃ query' narrowing', IsQueryHalf (lastQuery? steps) query' ∧
        buildGroup (narrowingSteps steps) = .ok narrowing' ∧
        Document.object (query ++ [("filter", narrowing)]) =
          .object (query' ++ narrowingHalf narrowing') ∧
        (keys (query' ++ narrowingHalf narrowing')).Sublist ["query", "sort", "filter"] :=
  ⟨rfl, filter_halves rfl⟩

end SearchQuery
