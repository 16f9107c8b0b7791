import SearchQuery.Proofs.Explicit

/-!
# Steps of different kinds can be interleaved at will

A declaration reaches only the fields of a draft, a sort call only its criteria, and any other call
only its clauses. So what is built depends on the order within each kind, and not on how the kinds
are interleaved.
-/

namespace SearchQuery

/-! ## States in parts -/

namespace Outcome

variable {α κ σ τ : Type}

/-- Every step sees, and changes, no part of the state but that of its own kind. -/
structure Separates (run : α → σ → Outcome σ) (kind : α → κ) (part : κ → σ → τ) : Prop where
  frame : ∀ {step : α} {k : κ}, kind step ≠ k → ∀ state,
    part k (run step state).state = part k state
  error_congr : ∀ {step : α} {first second : σ}, part (kind step) first = part (kind step) second →
    (run step first).error = (run step second).error
  state_congr : ∀ {step : α} {first second : σ}, part (kind step) first = part (kind step) second →
    part (kind step) (run step first).state = part (kind step) (run step second).state

namespace Separates

variable [DecidableEq κ] {run : α → σ → Outcome σ} {kind : α → κ} {part : κ → σ → τ}

/-- One part after a run is what the steps of its kind make of it on their own. -/
theorem runAll_filter (h : Separates run kind part) {steps : List α} {k : κ} {first second : σ}
    (hpart : part k first = part k second) (herror : (runAll run steps first).error = none) :
    (runAll run (steps.filter (kind · = k)) second).error = none ∧
      part k (runAll run (steps.filter (kind · = k)) second).state =
        part k (runAll run steps first).state := by
  induction steps generalizing first second with
  | nil => exact ⟨rfl, hpart.symm⟩
  | cons step rest ih =>
    rw [runAll, andThen_error_eq_none] at herror
    rw [runAll, andThen_state herror.1]
    by_cases hkind : kind step = k
    · subst hkind
      have hstep := (h.error_congr hpart).symm.trans herror.1
      rw [List.filter_cons_of_pos (by simp), runAll, andThen_error hstep, andThen_state hstep]
      exact ih (h.state_congr hpart) herror.2
    · rw [List.filter_cons_of_neg (by simp [hkind])]
      exact ih ((h.frame hkind first).trans hpart) herror.2

/-- A run fails only if the steps of some kind fail on their own. -/
theorem runAll_error (h : Separates run kind part) {steps : List α} {state : σ}
    (hkinds : ∀ k, ∃ other, part k state = part k other ∧
      (runAll run (steps.filter (kind · = k)) other).error = none) :
    (runAll run steps state).error = none := by
  induction steps generalizing state with
  | nil => rfl
  | cons step rest ih =>
    obtain ⟨own, hown, herror⟩ := hkinds (kind step)
    rw [List.filter_cons_of_pos (by simp), runAll, andThen_error_eq_none] at herror
    have hstep := (h.error_congr hown).trans herror.1
    rw [runAll, andThen_error hstep]
    refine ih (fun k => ?_)
    by_cases hkind : kind step = k
    · subst hkind
      exact ⟨_, h.state_congr hown, herror.2⟩
    · obtain ⟨other, hother, hrest⟩ := hkinds k
      rw [List.filter_cons_of_neg (by simp [hkind])] at hrest
      exact ⟨other, (h.frame hkind state).trans hother, hrest⟩

theorem runAll_congr (h : Separates run kind part) {first second : List α}
    (hsame : ∀ k, first.filter (kind · = k) = second.filter (kind · = k)) {state : σ}
    (herror : (runAll run first state).error = none) :
    (runAll run second state).error = none ∧
      ∀ k, part k (runAll run second state).state = part k (runAll run first state).state := by
  have hfirst := fun k => h.runAll_filter (k := k) rfl herror
  have hsecond : (runAll run second state).error = none :=
    h.runAll_error (fun k => ⟨state, rfl, hsame k ▸ (hfirst k).1⟩)
  refine ⟨hsecond, fun k => ?_⟩
  rw [← (hfirst k).2, ← (h.runAll_filter rfl hsecond).2, hsame k]

end Separates

end Outcome

/-! ## Kinds of steps on a draft -/

inductive StepKind where
  | declaration
  | sort
  | clause
deriving DecidableEq

def Call.kind : Call → StepKind
  | .field _ _ | .named _ _ _ => .declaration
  | .sort _ _ => .sort
  | _ => .clause

def Step.kind : Step → StepKind
  | .call inner => inner.kind
  | .filter _ => .clause
  | .attempt step => step.kind

def Edit.kind : Edit → StepKind
  | .declare _ _ => .declaration
  | .sort _ _ => .sort
  | _ => .clause

/-- What the steps of a kind see of a draft. -/
def Draft.part : StepKind → Draft → Draft
  | .declaration, draft => { isRoot := draft.isRoot, fields := draft.fields }
  | .sort, draft => { isRoot := draft.isRoot, sort := draft.sort }
  | .clause, draft => { isRoot := draft.isRoot, clauses := draft.clauses }

theorem Draft.isRoot_eq_of_part {kind : StepKind} {first second : Draft}
    (h : first.part kind = second.part kind) : first.isRoot = second.isRoot := by
  have hroot := congrArg Draft.isRoot h
  cases kind <;> exact hroot

theorem Draft.eq_of_parts {first second : Draft} (h : ∀ kind, first.part kind = second.part kind) :
    first = second := by
  have hfields := congrArg Draft.fields (h .declaration)
  have hsort := congrArg Draft.sort (h .sort)
  have hclauses := congrArg Draft.clauses (h .clause)
  have hroot := congrArg Draft.isRoot (h .clause)
  cases first
  cases second
  simp_all [part]

namespace Edit

theorem part_apply_of_ne {edit : Edit} {kind : StepKind} (h : edit.kind ≠ kind) (draft : Draft) :
    (edit.apply draft).part kind = draft.part kind := by
  cases edit with
  | declare =>
    cases kind with
    | declaration => exact absurd rfl h
    | sort | clause => rfl
  | sort =>
    cases kind with
    | sort => exact absurd rfl h
    | declaration | clause => rfl
  | clause =>
    cases kind with
    | clause => exact absurd rfl h
    | declaration | sort =>
      simp only [apply, Draft.addClause]
      split <;> rfl
  | aggregations =>
    cases kind with
    | clause => exact absurd rfl h
    | declaration | sort =>
      simp only [apply]
      split <;> rfl
  | entry | filtered =>
    cases kind with
    | clause => exact absurd rfl h
    | declaration | sort => rfl

/-- An edit can be made on the part that it sees. -/
theorem part_apply (edit : Edit) (draft : Draft) :
    (edit.apply draft).part edit.kind = (edit.apply (draft.part edit.kind)).part edit.kind := by
  cases edit with
  | clause key content =>
    have hroot : (draft.part .clause).isRoot = draft.isRoot := rfl
    simp only [apply, kind, Draft.addClause, hroot]
    split <;> rfl
  | aggregations found =>
    have hgate : (draft.part .clause).hasAggregations = draft.hasAggregations := rfl
    simp only [apply, kind, hgate]
    split <;> rfl
  | declare | sort | entry | filtered => rfl

theorem part_apply_congr {edit : Edit} {first second : Draft}
    (h : first.part edit.kind = second.part edit.kind) :
    (edit.apply first).part edit.kind = (edit.apply second).part edit.kind := by
  rw [part_apply, h, ← part_apply]

end Edit

theorem Call.kind_edit? (call : Call) : ∀ edit ∈ call.edit?, edit.kind = call.kind := by
  intro edit hedit
  cases call with
  | field => obtain rfl := Option.some.inj hedit; rfl
  | fail | note | probe => cases hedit
  | queryString | multiMatch | group | named | aggregate | sort =>
    obtain ⟨_, -, rfl⟩ := mem_toOption_map.1 hedit
    rfl

theorem Step.kind_edit? (step : Step) : ∀ edit ∈ step.edit?, edit.kind = step.kind := by
  cases step with
  | call inner => exact inner.kind_edit?
  | filter body =>
    intro edit hedit
    obtain ⟨item, rfl⟩ := eq_filtered_of_mem edit hedit
    rfl
  | attempt inner => exact inner.kind_edit?

theorem Draft.hasAggregations_congr {first second : Draft} (h : first.clauses = second.clauses) :
    first.hasAggregations = second.hasAggregations := congrArg (Entries.contains "aggs") h

/-- Only an `aggregate` call looks at the draft before it fails, and only at the clauses. -/
theorem Call.error_congr {call : Call} {first second : Draft} (hroot : first.isRoot = second.isRoot)
    (hclauses : call.kind = .clause → first.clauses = second.clauses) :
    (call.run first).error = (call.run second).error := by
  cases call with
  | queryString | multiMatch | sort =>
    simp only [run]
    exact Outcome.error_ofExcept_map _ _ _ _ _
  | group occur body => simp only [run, Outcome.into_error]
  | field name steps => simp only [run, Draft.declare, Draft.newField, hroot]
  | named name arguments steps =>
    simp only [run, Draft.declare, Draft.newField, hroot]
    split <;> rfl
  | aggregate body =>
    simp only [run, Draft.hasAggregations_congr (hclauses rfl)]
    split
    · rfl
    · simp only [Outcome.into_error]
  | fail | note | probe => rfl

theorem Call.error_congr_of_part {call : Call} {first second : Draft}
    (h : first.part call.kind = second.part call.kind) :
    (call.run first).error = (call.run second).error := by
  refine error_congr (Draft.isRoot_eq_of_part h) (fun hkind => ?_)
  rw [hkind] at h
  have hclauses := congrArg Draft.clauses h
  exact hclauses

theorem Step.error_congr_of_clauses {first second : Draft} (hroot : first.isRoot = second.isRoot) :
    (step : Step) → (step.kind = .clause → first.clauses = second.clauses) →
      (step.run first).error = (step.run second).error
  | .call _, h => Call.error_congr hroot h
  | .filter _, _ => by rw [run, run, Outcome.into_error, Outcome.into_error]
  | .attempt _, _ => rfl

theorem Step.error_congr {step : Step} {first second : Draft}
    (h : first.part step.kind = second.part step.kind) :
    (step.run first).error = (step.run second).error := by
  refine step.error_congr_of_clauses (Draft.isRoot_eq_of_part h) (fun hkind => ?_)
  rw [hkind] at h
  have hclauses := congrArg Draft.clauses h
  exact hclauses

theorem Step.separates : Outcome.Separates Step.run Step.kind Draft.part where
  frame {step kind} hkind draft := by
    rw [step.run_state]
    cases hedit : step.edit? with
    | none => rfl
    | some edit => exact Edit.part_apply_of_ne (step.kind_edit? edit hedit ▸ hkind) draft
  error_congr := Step.error_congr
  state_congr {step first second} h := by
    rw [step.run_state, step.run_state]
    cases hedit : step.edit? with
    | none => exact h
    | some edit =>
      rw [← step.kind_edit? edit hedit] at h ⊢
      exact Edit.part_apply_congr h

/-! ## Declarations apart -/

namespace Draft

/-- The drafts differ at most in their fields and sort criteria. -/
def SameClauses (first second : Draft) : Prop := first.part .clause = second.part .clause

theorem SameClauses.clauses_eq {first second : Draft} (h : first.SameClauses second) :
    first.clauses = second.clauses := by
  unfold SameClauses at h
  have hclauses := congrArg Draft.clauses h
  exact hclauses

end Draft

namespace Step

variable {first second : Draft}

theorem sameClauses_run (step : Step) (h : first.SameClauses second) :
    Outcome.Related Draft.SameClauses (step.run first) (step.run second) := by
  refine ⟨?_, step.error_congr_of_clauses (Draft.isRoot_eq_of_part h) (fun _ => h.clauses_eq)⟩
  by_cases hkind : step.kind = .clause
  · have hpart : first.part step.kind = second.part step.kind := by
      rw [hkind]
      exact h
    have hstate := separates.state_congr hpart
    rw [hkind] at hstate
    exact hstate
  · exact (separates.frame hkind first).trans (h.trans (separates.frame hkind second).symm)

theorem sameClauses_runAll (steps : List Step) (h : first.SameClauses second) :
    Outcome.Related Draft.SameClauses (runAll steps first) (runAll steps second) := by
  induction steps generalizing first second with
  | nil => exact ⟨h, rfl⟩
  | cons step rest ih =>
    have hstep := step.sameClauses_run h
    exact hstep.andThen (fun _ => ih hstep.1)

/-- Declarations that succeed can be put in and taken out without changing what the other steps do
to the clauses, and whether they fail. -/
theorem sameClauses_insert {declarations : List Step}
    (hdeclarations : ∀ step ∈ declarations, step.kind = .declaration ∧
      ∀ draft, (step.run draft).error = none) (before after : List Step)
    (h : first.SameClauses second) :
    Outcome.Related Draft.SameClauses (runAll (before ++ declarations ++ after) first)
      (runAll (before ++ after) second) := by
  induction before generalizing first second with
  | cons step rest ih =>
    have hstep := step.sameClauses_run h
    exact hstep.andThen (fun _ => ih hstep.1)
  | nil =>
    induction declarations generalizing first with
    | nil => exact sameClauses_runAll after h
    | cons step rest ih =>
      rw [List.forall_mem_cons] at hdeclarations
      obtain ⟨⟨hkind, hsucceeds⟩, hrest⟩ := hdeclarations
      have hclause : step.kind ≠ .clause := by
        rw [hkind]
        nofun
      have hagrees := Outcome.andThen_agrees (hsucceeds first)
        (fun next => runAll (rest ++ after) next)
      have hnext := ih hrest ((separates.frame hclause first).trans h)
      exact ⟨hagrees.1 ▸ hnext.1, hagrees.2.trans hnext.2⟩

end Step

/-! ## Kinds of steps on a filter -/

inductive FilterStepKind where
  | query
  | narrowing (kind : StepKind)
deriving DecidableEq

def FilterStep.kind : FilterStep → FilterStepKind
  | .call inner => .narrowing inner.kind
  | .filter _ => .narrowing .clause
  | .draftFilter _ => .narrowing .clause
  | .query _ => .query
  | .attempt step => step.kind

def Filter.part : FilterStepKind → Filter → Filter
  | .query, filter => { query := filter.query }
  | .narrowing kind, filter => { draft := filter.draft.part kind }

theorem Filter.eq_of_parts {first second : Filter}
    (h : ∀ kind, first.part kind = second.part kind) : first = second := by
  have hdraft : first.draft = second.draft :=
    Draft.eq_of_parts (fun kind => congrArg Filter.draft (h (.narrowing kind)))
  have hquery := congrArg Filter.query (h .query)
  cases first
  cases second
  simp_all [part]

theorem FilterStep.kind_edit? (step : FilterStep) :
    ∀ edit ∈ step.edit?, step.kind = .narrowing edit.kind := by
  cases step with
  | call inner => exact fun edit hedit => congrArg _ (inner.kind_edit? edit hedit).symm
  | draftFilter =>
    intro edit hedit
    obtain ⟨item, rfl⟩ := eq_filtered_of_mem edit hedit
    rfl
  | filter | query => exact fun _ hedit => nomatch hedit
  | attempt inner => exact inner.kind_edit?

theorem FilterStep.kind_query? (step : FilterStep) : ∀ d ∈ step.query?, step.kind = .query := by
  cases step with
  | call | filter | draftFilter => exact fun _ hquery => nomatch hquery
  | query => exact fun _ _ => rfl
  | attempt inner => exact inner.kind_query?

theorem FilterStep.error_congr {first second : Filter} : {step : FilterStep} →
    first.part step.kind = second.part step.kind → (step.run first).error = (step.run second).error
  | .call _, h => by
    rw [run, run]
    exact Call.error_congr_of_part (congrArg Filter.draft h)
  | .filter _, _ => by rw [run, run]; rfl
  | .draftFilter _, _ => by rw [run, run, Outcome.into_error, Outcome.into_error]
  | .query _, _ => by rw [run, run, Outcome.into_error, Outcome.into_error]
  | .attempt _, _ => rfl

theorem FilterStep.separates : Outcome.Separates FilterStep.run FilterStep.kind Filter.part where
  frame {step kind} hkind filter := by
    rw [step.run_state]
    cases kind with
    | query =>
      cases hquery : step.query? with
      | none => rfl
      | some d => exact absurd (step.kind_query? d hquery) hkind
    | narrowing kind =>
      cases hedit : step.edit? with
      | none => rfl
      | some edit =>
        have hne : edit.kind ≠ kind := fun h => hkind (h ▸ step.kind_edit? edit hedit)
        exact congrArg (fun draft : Draft => ({ draft := draft } : Filter))
          (Edit.part_apply_of_ne hne filter.draft)
  error_congr := FilterStep.error_congr
  state_congr {step first second} h := by
    rw [step.run_state, step.run_state]
    cases hkind : step.kind with
    | query =>
      rw [hkind] at h
      have hquery : (first.part .query).query = (second.part .query).query :=
        congrArg Filter.query h
      exact congrArg (fun query => ({ query := step.query?.or query } : Filter)) hquery
    | narrowing kind =>
      rw [hkind] at h
      cases hedit : step.edit? with
      | none => exact h
      | some edit =>
        obtain rfl : kind = edit.kind :=
          FilterStepKind.narrowing.inj (hkind.symm.trans (step.kind_edit? edit hedit))
        exact congrArg (fun draft : Draft => ({ draft := draft } : Filter))
          (Edit.part_apply_congr (congrArg Filter.draft h))

/-! ## Interleavings -/

/-- The steps of each kind stand in the same order. Nothing is said of steps of different kinds. -/
def SameByKind {α κ : Type} [DecidableEq κ] (kind : α → κ) (first second : List α) : Prop :=
  ∀ k, first.filter (kind · = k) = second.filter (kind · = k)

/-- Only the order within each kind of step matters, on a draft as well as on a filter: how the
kinds are interleaved changes neither whether the steps succeed nor what they build. -/
theorem interleaving_is_free :
    (∀ (first second : List Step) (draft : Draft) (d : Document),
      SameByKind Step.kind first second → (Step.runAll first draft).result Draft.document = .ok d →
        (Step.runAll second draft).result Draft.document = .ok d) ∧
    (∀ (first second : List FilterStep) (filter : Filter) (d : Document),
      SameByKind FilterStep.kind first second →
        (FilterStep.runAll first filter).result Filter.document = .ok d →
        (FilterStep.runAll second filter).result Filter.document = .ok d) := by
  constructor
  · intro first second draft d hsame hfirst
    rw [Step.runAll_eq, Outcome.result_eq_ok] at hfirst
    obtain ⟨hsecond, hparts⟩ := Step.separates.runAll_congr hsame hfirst.1
    rw [Step.runAll_eq, Outcome.result_eq_ok, Draft.eq_of_parts hparts]
    exact ⟨hsecond, hfirst.2⟩
  · intro first second filter d hsame hfirst
    rw [FilterStep.runAll_eq, Outcome.result_eq_ok] at hfirst
    obtain ⟨hsecond, hparts⟩ := FilterStep.separates.runAll_congr hsame hfirst.1
    rw [FilterStep.runAll_eq, Outcome.result_eq_ok, Filter.eq_of_parts hparts]
    exact ⟨hsecond, hfirst.2⟩

/-- A field that is declared before a `must` group stands after it all the same. -/
theorem interleaving_is_free_fields_first :
    let status : Step := .call (.field "status" [.is (.string "active")])
    let title : Step := .call (.field "title" [.matching .plain (.string "rust"), .should])
    let group : Step := .call (.group .must [.call (.queryString "rust" (.object []))])
    let aggregate : Step := .call (.aggregate [.register "max" "age" []])
    let sort : Step := .call (.sort "created" (.object []))
    let query : FilterStep := .query [sort, group]
    let narrowing : FilterStep := .call (.field "age" [.gt (.string "a")])
    let first := [status, group, title, sort, aggregate]
    let second := [group, aggregate, status, title, sort]
    let document : Document := .object
      [ ("query", .object
          [ ("bool", .object
              [ ("must", .array
                  [ .object [("query_string", .object [("query", .string "rust")])],
                    .object [("term", .object [("status", .string "active")])] ]),
                ("should", .array
                  [.object [("match", .object
                    [("title", .object [("query", .string "rust")])])]]) ]),
            ("aggs", .object
              [("age_max", .object [("max", .object [("field", .string "age")])])]) ]),
        ("sort", .array [.object [("created", .object [])]]) ]
    let filtered : Document := .object
      [ ("query", .object [("bool", .object [("must", .array
          [.object [("query_string", .object [("query", .string "rust")])]])])]),
        ("sort", .array [.object [("created", .object [])]]),
        ("filter", .object [("range", .object [("age", .object [("gt", .string "a")])])]) ]
    (SameByKind Step.kind first second ∧ build first = .ok document ∧
      build second = .ok document) ∧
    SameByKind FilterStep.kind [query, narrowing] [narrowing, query] ∧
      buildFilter [query, narrowing] = .ok filtered ∧
      buildFilter [narrowing, query] = .ok filtered := by
  intro status title group aggregate sort query narrowing first second document filtered
  have hsteps : SameByKind Step.kind first second := by
    intro k
    cases k <;> rfl
  have hfilter : SameByKind FilterStep.kind [query, narrowing] [narrowing, query] := by
    intro k
    cases k with
    | query => rfl
    | narrowing kind => cases kind <;> rfl
  exact ⟨⟨hsteps, rfl, interleaving_is_free.1 first second .root document hsteps rfl⟩,
    hfilter, rfl, interleaving_is_free.2 _ _ {} filtered hfilter rfl⟩

end SearchQuery
