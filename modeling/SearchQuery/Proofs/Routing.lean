import SearchQuery.Field.Step
import SearchQuery.Proofs.Outcome

/-!
# Failing and routing steps on a field

A step that fails leaves its field as it was. Routing is apart from everything else that steps do to a
field: it can be taken out of a run and done at the end.
-/

namespace SearchQuery

namespace FieldStep

def occur? : FieldStep → Option Occur
  | .route occur => some occur
  | .attempt step => step.occur?
  | _ => none

def fails : FieldStep → Bool
  | .matchingWith _ options => (readOptions "match" options).toOption.isNone
  | _ => false

/-- The steps before the first that fails. If the declaration succeeds, these are all its steps. -/
def taken (steps : List FieldStep) : List FieldStep :=
  steps.takeWhile (fun step => !step.fails)

/-! ## Failing -/

variable {step : FieldStep} {steps : List FieldStep} {field : Field}

theorem error_eq_none_iff (step : FieldStep) (field : Field) :
    (step.run field).error = none ↔ step.fails = false := by
  cases step with
  | matchingWith text options =>
    rw [run, Outcome.ofExcept_error_eq_none, fails]
    cases hoptions : readOptions "match" options with
    | error error => simp [Field.setMatchWith_of_error hoptions, Except.toOption]
    | ok read => simp [Field.setMatchWith_of_ok hoptions, Except.toOption]
  | _ => simp [run, fails, Outcome.done, Outcome.noted, Outcome.caught]

theorem run_of_fails (h : step.fails = true) (field : Field) : (step.run field).state = field := by
  cases step with
  | matchingWith text options =>
    rw [run]
    unfold fails at h
    cases hoptions : readOptions "match" options with
    | error error =>
      rw [Field.setMatchWith_of_error hoptions]
      rfl
    | ok read => simp [hoptions, Except.toOption] at h
  | _ => simp [fails] at h

theorem run_of_error (h : (step.run field).error ≠ none) (other : Field) :
    (step.run other).state = other := by
  apply run_of_fails
  rw [ne_eq, error_eq_none_iff] at h
  simpa using h

theorem runAll_cons (h : step.fails = false) (rest : List FieldStep) (field : Field) :
    (runAll (step :: rest) field).state = (runAll rest (step.run field).state).state :=
  Outcome.andThen_state ((error_eq_none_iff step field).2 h) _

theorem runAll_error (h : ∀ step ∈ steps, step.fails = false) (field : Field) :
    (runAll steps field).error = none := by
  induction steps generalizing field with
  | nil => rfl
  | cons step rest ih =>
    rw [List.forall_mem_cons] at h
    have hstep := (error_eq_none_iff step field).2 h.1
    exact (Outcome.andThen_error hstep _).trans (ih h.2 _)

theorem taken_succeed (steps : List FieldStep) : ∀ step ∈ taken steps, step.fails = false := by
  have hall := List.all_eq_true.1 (List.all_takeWhile (l := steps) (p := fun step => !step.fails))
  intro step hstep
  simpa using hall step hstep

theorem runAll_taken (steps : List FieldStep) (field : Field) :
    (runAll (taken steps) field).state = (runAll steps field).state := by
  induction steps generalizing field with
  | nil => rfl
  | cons step rest ih =>
    cases hfails : step.fails with
    | false =>
      rw [taken, List.takeWhile_cons_of_pos (by simp [hfails]), runAll_cons hfails,
        runAll_cons hfails]
      exact ih _
    | true =>
      rw [taken, List.takeWhile_cons_of_neg (by simp [hfails])]
      have herror : (step.run field).error ≠ none := by
        rw [ne_eq, error_eq_none_iff, hfails]
        decide
      obtain ⟨error, herror⟩ := Option.ne_none_iff_exists'.1 herror
      have hstop : runAll (step :: rest) field = step.run field :=
        Outcome.andThen_of_error herror (runAll rest)
      rw [hstop, run_of_fails hfails]
      rfl

/-! ## Routing -/

/-- A step does not look at the group, and changes it only by routing. -/
theorem run_occur (occur : Option Occur) (field : Field) : (step : FieldStep) →
    (step.run { field with occur := occur }).state =
      { (step.run field).state with occur := step.occur?.or occur }
  | .matchingWith text options => by
    rw [run, run]
    cases hoptions : readOptions "match" options with
    | error error =>
      rw [Field.setMatchWith_of_error hoptions, Field.setMatchWith_of_error hoptions]
      rfl
    | ok read =>
      rw [Field.setMatchWith_of_ok hoptions, Field.setMatchWith_of_ok hoptions]
      rfl
  | .attempt step => run_occur occur field step
  | .bound .. | .is _ | .matching .. | .matchAll _ | .matchAny _ | .matchAtLeast .. | .regex _
  | .route _ | .note => rfl

theorem run_routing (h : step.occur? ≠ none) (field : Field) :
    (step.run field).state = { field with occur := step.occur? } := by
  induction step with
  | route occur => rfl
  | attempt step ih => exact ih h
  | _ => exact absurd rfl h

/-- Routing can be taken out of a run and done at its end. -/
theorem runAll_unrouted (h : ∀ step ∈ steps, step.fails = false) (occur : Option Occur)
    (field : Field) :
    (runAll steps field).state =
      { (runAll (steps.filter (fun step => step.occur?.isNone))
          { field with occur := occur }).state with
        occur := (steps.filterMap FieldStep.occur?).getLast?.or field.occur } := by
  induction steps generalizing field with
  | nil => rfl
  | cons step rest ih =>
    rw [List.forall_mem_cons] at h
    rw [runAll_cons h.1, ih h.2]
    cases hoccur : step.occur? with
    | some routed =>
      rw [List.filter_cons_of_neg (by simp [hoccur]), List.filterMap_cons_some hoccur,
        run_routing (by simp [hoccur]), hoccur, List.getLast?_cons]
      cases (rest.filterMap FieldStep.occur?).getLast? <;> rfl
    | none =>
      have hrun := run_occur occur field step
      rw [hoccur, Option.none_or] at hrun
      have hkeep := run_occur field.occur field step
      rw [hoccur, Option.none_or] at hkeep
      rw [List.filter_cons_of_pos (by simp [hoccur]), List.filterMap_cons_none hoccur,
        runAll_cons h.1, hrun, congrArg Field.occur hkeep]

end FieldStep

end SearchQuery
