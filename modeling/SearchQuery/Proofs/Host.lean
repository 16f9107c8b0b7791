import SearchQuery.Proofs.Halves

/-!
# Hosts of calls

A draft takes calls, and a filter takes them for the draft it holds. What a run does to the draft is
shown here for both at once. A step reaches at most one key of the clauses. No step and no field
removes a clause or moves one, so the keys that are there are a prefix of all later keys.
-/

namespace SearchQuery

open Entries

namespace Outcome

variable {σ τ ρ : Type}

def map (f : σ → τ) (outcome : Outcome σ) : Outcome τ :=
  ⟨f outcome.state, outcome.notes, outcome.error⟩

theorem map_done (state : σ) (f : σ → τ) : (done state).map f = done (f state) := rfl

theorem map_into (inner : Outcome ρ) (outer : σ) (store : ρ → σ) (f : σ → τ) :
    (inner.into outer store).map f = inner.into (f outer) (fun state => f (store state)) := by
  unfold into
  split <;> rfl

/-- The second is the first after it has been caught, any number of times. -/
inductive UpToCatches (outcome : Outcome σ) : Outcome σ → Prop where
  | never : UpToCatches outcome outcome
  | again {later : Outcome σ} (before : UpToCatches outcome later) :
      UpToCatches outcome later.caught

end Outcome

/-! ## Calls below their catches -/

def Step.call? : Step → Option Call
  | .call inner => some inner
  | .filter _ => none
  | .attempt step => step.call?

def FilterStep.call? : FilterStep → Option Call
  | .call inner => some inner
  | .filter _ => none
  | .draftFilter _ => none
  | .query _ => none
  | .attempt step => step.call?

theorem Step.run_call? {call : Call} : {step : Step} → step.call? = some call → (draft : Draft) →
    ((call.run draft).map id).UpToCatches (step.run draft)
  | .call _, h, draft => by
    obtain rfl := Option.some.inj h
    rw [Step.run]
    exact .never
  | .filter _, h, _ => nomatch h
  | .attempt step, h, draft => by
    have hstep := step.run_call? h draft
    rw [Step.run]
    exact hstep.again

theorem FilterStep.run_call? {call : Call} : {step : FilterStep} → step.call? = some call →
    (state : Filter) →
    ((call.run state.draft).map (fun draft => state.setDraft draft)).UpToCatches (step.run state)
  | .call _, h, state => by
    obtain rfl := Option.some.inj h
    rw [FilterStep.run]
    exact .never
  | .filter _, h, _ => nomatch h
  | .draftFilter _, h, _ => nomatch h
  | .query _, h, _ => nomatch h
  | .attempt step, h, state => by
    have hstep := step.run_call? h state
    rw [FilterStep.run]
    exact hstep.again

theorem Step.edit?_call {call : Call} : {step : Step} → step.call? = some call →
    step.edit? = call.edit?
  | .call _, h => by
    obtain rfl := Option.some.inj h
    rfl
  | .filter _, h => nomatch h
  | .attempt _, h => by
    rw [Step.edit?]
    exact edit?_call h

theorem FilterStep.edit?_call {call : Call} : {step : FilterStep} → step.call? = some call →
    step.edit? = call.edit?
  | .call _, h => by
    obtain rfl := Option.some.inj h
    rfl
  | .filter _, h => nomatch h
  | .draftFilter _, h => nomatch h
  | .query _, h => nomatch h
  | .attempt _, h => by
    rw [FilterStep.edit?]
    exact edit?_call h

theorem Step.edit?_other : {step : Step} → step.call? = none →
    ∀ edit ∈ step.edit?, ∃ item, edit = .filtered item
  | .call _, h => nomatch h
  | .filter _, _ => eq_filtered_of_mem
  | .attempt _, h => by
    rw [Step.edit?]
    exact edit?_other h

theorem FilterStep.edit?_other : {step : FilterStep} → step.call? = none →
    ∀ edit ∈ step.edit?, ∃ item, edit = .filtered item
  | .call _, h => nomatch h
  | .filter _, _ => nofun
  | .draftFilter _, _ => eq_filtered_of_mem
  | .query _, _ => nofun
  | .attempt _, h => by
    rw [FilterStep.edit?]
    exact edit?_other h

/-! ## Hosts -/

/-- A state that holds a draft, and steps on it: calls on the draft, perhaps caught, and other steps,
which add to it at most a `filtered` entry. -/
structure Host (α σ : Type) where
  run : α → σ → Outcome σ
  draft : σ → Draft
  setDraft : Draft → σ → σ
  call? : α → Option Call
  edit? : α → Option Edit
  setDraft_draft : ∀ state, setDraft (draft state) state = state
  run_call : ∀ {step call}, call? step = some call → ∀ state,
    ((call.run (draft state)).map (fun draft => setDraft draft state)).UpToCatches (run step state)
  run_state : ∀ step state,
    draft (run step state).state =
      (edit? step).elim (draft state) (fun edit => edit.apply (draft state))
  edit?_call : ∀ {step call}, call? step = some call → edit? step = call.edit?
  edit?_other : ∀ {step}, call? step = none → ∀ edit ∈ edit? step, ∃ item, edit = .filtered item
  sound_edit : ∀ step, ∀ edit ∈ edit? step, edit.Sound

def Step.host : Host Step Draft where
  run := Step.run
  draft := id
  setDraft draft _ := draft
  call? := Step.call?
  edit? := Step.edit?
  setDraft_draft _ := rfl
  run_call := Step.run_call?
  run_state := Step.run_state
  edit?_call := Step.edit?_call
  edit?_other := Step.edit?_other
  sound_edit := Step.sound_edit

def FilterStep.host : Host FilterStep Filter where
  run := FilterStep.run
  draft := Filter.draft
  setDraft := Filter.setDraft
  call? := FilterStep.call?
  edit? := FilterStep.edit?
  setDraft_draft _ := rfl
  run_call := FilterStep.run_call?
  run_state step filter := congrArg Filter.draft (step.run_state filter)
  edit?_call := FilterStep.edit?_call
  edit?_other := FilterStep.edit?_other
  sound_edit step := step.sound_edit.1

/-! ## What a step reaches -/

/-- The key that a call writes to in the clauses of a draft. -/
def Call.key? (isRoot : Bool) : Call → Option String
  | .queryString _ _ => some (if isRoot then "bool" else "query_string")
  | .multiMatch _ _ _ => some (if isRoot then "bool" else "multi_match")
  | .group _ _ => some "bool"
  | .aggregate _ => some "aggs"
  | _ => none

theorem Call.key?_edit? (isRoot : Bool) (call : Call) :
    ∀ edit ∈ call.edit?, edit.key? isRoot = call.key? isRoot := by
  intro edit hedit
  cases call with
  | field => obtain rfl := Option.some.inj hedit; rfl
  | fail | note | probe => exact absurd hedit nofun
  | queryString | multiMatch | group | named | aggregate | sort =>
    obtain ⟨_, -, rfl⟩ := mem_toOption_map.1 hedit
    rfl

/-- Keys stay where they are, and a new key comes last. -/
theorem Edit.keys_prefix_apply (edit : Edit) (draft : Draft) :
    keys draft.clauses <+: keys (edit.apply draft).clauses := by
  cases edit with
  | clause key content =>
    simp only [apply, Draft.addClause]
    split <;> exact keys_prefix_update _ _ _
  | entry | filtered => exact keys_prefix_update _ _ _
  | aggregations found =>
    simp only [apply]
    split
    · exact List.prefix_refl _
    · exact keys_prefix_update _ _ _
  | declare | sort => exact List.prefix_refl _

theorem Draft.keys_prefix_place (clauses : Clauses) (field : Field) :
    keys clauses <+: keys (place clauses field) := by
  unfold place
  split
  · exact keys_prefix_update _ _ _
  · exact Value.keys_prefix_mergeEntries _ _

theorem Draft.keys_prefix_foldl_place (fields : List Field) (clauses : Clauses) :
    keys clauses <+: keys (fields.foldl place clauses) := by
  induction fields generalizing clauses with
  | nil => exact List.prefix_refl _
  | cons field rest ih => exact (keys_prefix_place clauses field).trans (ih _)

namespace Host

variable {α σ : Type} (host : Host α σ)

/-- The state after the steps, or where one of them has failed. -/
def reached (start : σ) (steps : List α) : σ := (Outcome.runAll host.run steps start).state

/-- The clauses of the finished draft. -/
def finished (start : σ) (steps : List α) : Entries Document :=
  Value.resolveEntries (host.draft (host.reached start steps)).allClauses

/-- The key that a step writes to. -/
def key? (isRoot : Bool) (step : α) : Option String :=
  match host.call? step with
  | some call => call.key? isRoot
  | none => some "filtered"

theorem key?_ne {isRoot : Bool} {step : α} {key : String} (hkey : key ≠ "filtered")
    (h : ∀ call ∈ host.call? step, call.key? isRoot ≠ some key) :
    host.key? isRoot step ≠ some key := by
  unfold key?
  cases hcall : host.call? step with
  | none => simpa using hkey.symm
  | some call => exact h call hcall

theorem key?_edit? (isRoot : Bool) (step : α) :
    ∀ edit ∈ host.edit? step, edit.key? isRoot = host.key? isRoot step := by
  intro edit hedit
  unfold key?
  cases hcall : host.call? step with
  | some call =>
    rw [host.edit?_call hcall] at hedit
    exact call.key?_edit? isRoot edit hedit
  | none =>
    obtain ⟨item, rfl⟩ := host.edit?_other hcall edit hedit
    rfl

variable {host} {start state : σ} {step : α}

/-- What an edit keeps, a step keeps. -/
theorem draft_run {P : Draft → Prop} (h : P (host.draft state))
    (hedit : ∀ edit ∈ host.edit? step, P (edit.apply (host.draft state))) :
    P (host.draft (host.run step state).state) := by
  rw [host.run_state]
  cases hown : host.edit? step with
  | none => exact h
  | some edit => exact hedit edit hown

theorem get?_run_of_ne {key : String} (h : host.key? (host.draft state).isRoot step ≠ some key) :
    get? key (host.draft (host.run step state).state).clauses =
      get? key (host.draft state).clauses := by
  refine draft_run (P := fun next => get? key next.clauses = get? key (host.draft state).clauses)
    rfl (fun edit hedit => ?_)
  rw [← host.key?_edit? _ step edit hedit] at h
  exact Edit.get?_apply_of_ne h

theorem reached_cons (h : (host.run step start).error = none) (rest : List α) :
    host.reached start (step :: rest) = host.reached (host.run step start).state rest :=
  Outcome.andThen_state h _

variable (host) (start : σ) (steps : List α)

theorem keys_prefix_run (step : α) (state : σ) :
    keys (host.draft state).clauses <+: keys (host.draft (host.run step state).state).clauses :=
  draft_run (P := fun next => keys (host.draft state).clauses <+: keys next.clauses)
    (List.prefix_refl _) (fun edit _ => edit.keys_prefix_apply _)

theorem keys_prefix_reached :
    keys (host.draft start).clauses <+: keys (host.draft (host.reached start steps)).clauses :=
  Outcome.runAll_induction
    (P := fun next => keys (host.draft start).clauses <+: keys (host.draft next).clauses)
    (List.prefix_refl _) (fun step _ next h => h.trans (host.keys_prefix_run step next))

theorem isRoot_run (step : α) (state : σ) :
    (host.draft (host.run step state).state).isRoot = (host.draft state).isRoot :=
  draft_run (P := fun next => next.isRoot = (host.draft state).isRoot) rfl
    (fun edit _ => edit.isRoot_apply _)

theorem isRoot_reached :
    (host.draft (host.reached start steps)).isRoot = (host.draft start).isRoot :=
  Outcome.runAll_induction (P := fun next => (host.draft next).isRoot = (host.draft start).isRoot)
    rfl (fun step _ next h => (host.isRoot_run step next).trans h)

theorem sound_reached (h : (host.draft start).Sound) :
    (host.draft (host.reached start steps)).Sound :=
  Outcome.runAll_induction (P := fun next => (host.draft next).Sound) h
    (fun step _ _ hnext => draft_run (P := Draft.Sound) hnext
      (fun edit hedit => hnext.apply (host.sound_edit step edit hedit)))

/-! ## What the fields leave alone -/

theorem get?_allClauses (h : (host.draft start).Sound) (kind : ClauseKind) (hbool : kind ≠ .bool)
    (hop : ∀ op, kind ≠ .operator op) :
    get? kind.key (host.draft (host.reached start steps)).allClauses =
      get? kind.key (host.draft (host.reached start steps)).clauses := by
  have hkey : kind.key ≠ "bool" := fun hkey => hbool (ClauseKind.key_injective (b := .bool) hkey)
  exact Clauses.get?_foldl_place_of_ne (host.sound_reached start steps h).fields hkey
    (Operator.key_ne_kind kind hop) _

/-- The keys that are there after any step of a run come first in what is finished. -/
theorem keys_prefix_finished {before after : List α} {step : α}
    (h : (Outcome.runAll host.run (before ++ step :: after) start).error = none) :
    keys (host.draft (host.run step (host.reached start before)).state).clauses <+:
      keys (host.finished start (before ++ step :: after)) := by
  have hrun := Outcome.runAll_append (Outcome.error_of_append h) (step :: after)
  have herror := Outcome.andThen_error_eq_none.1 (hrun.2.symm.trans h)
  have hstate : host.reached start (before ++ step :: after) =
      host.reached (host.run step (host.reached start before)).state after :=
    hrun.1.trans (reached_cons herror.1 after)
  rw [finished, Value.keys_resolveEntries, hstate]
  exact (host.keys_prefix_reached _ after).trans (Draft.keys_prefix_foldl_place _ _)

end Host

/-! ## Finished drafts and filters -/

theorem Step.finished_eq (steps : List Step) (draft : Draft) :
    Step.host.finished draft steps =
      (Step.runAll steps draft).state.clauseDocument.entries := by
  rw [Step.runAll_eq]
  rfl

/-- The filter half of a finished filter. It is not there if it would be empty. -/
theorem FilterStep.finished_eq {steps : List FilterStep} {d : Document}
    (h : buildFilter steps = .ok d) :
    FilterStep.host.finished {} steps = (get? "filter" d.entries).elim [] Document.entries := by
  have hfinished : FilterStep.host.finished {} steps =
      Value.resolveEntries (FilterStep.runAll steps {}).state.draft.allClauses := by
    rw [FilterStep.runAll_eq]
    rfl
  have hclauses : (FilterStep.runAll steps {}).state.draft.clauseDocument = .object
      (Value.resolveEntries (FilterStep.runAll steps {}).state.draft.allClauses) := rfl
  rw [buildFilter_eq_append h, Document.entries, get?_append_of_not_mem (not_mem_keys_query steps),
    hclauses, ← hfinished]
  cases FilterStep.host.finished {} steps <;> rfl

end SearchQuery
