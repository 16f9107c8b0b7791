import SearchQuery.Outcome

/-! # Outcomes: what their combinators do to the state and to the error -/

namespace SearchQuery

namespace Outcome

variable {σ τ ρ υ α : Type}

theorem result_eq_ok {outcome : Outcome σ} {finish : σ → α} {a : α} :
    outcome.result finish = .ok a ↔ outcome.error = none ∧ finish outcome.state = a := by
  unfold result
  split <;> simp_all

theorem result_eq_error {outcome : Outcome σ} {finish : σ → α} {error : QueryError} :
    outcome.result finish = .error error ↔ outcome.error = some error := by
  unfold result
  split <;> simp_all

theorem into_state (inner : Outcome τ) (outer : σ) (finish : τ → α) (store : α → σ) :
    (inner.into outer (fun state => store (finish state))).state =
      (inner.result finish).toOption.elim outer store := by
  unfold into result
  split <;> rfl

theorem into_error (inner : Outcome τ) (outer : σ) (store : τ → σ) :
    (inner.into outer store).error = inner.error := by
  unfold into
  split <;> simp_all

theorem ofExcept_state (state : σ) (store : α → σ) (checked : Except QueryError α) :
    (ofExcept state (checked.map store)).state = checked.toOption.elim state store := by
  cases checked <;> rfl

theorem ofExcept_error_eq_none {state : σ} {checked : Except QueryError σ} :
    (ofExcept state checked).error = none ↔ ∃ next, checked = .ok next := by
  cases checked <;> simp [ofExcept, done, failed]

theorem andThen_of_error {first : Outcome σ} {error : QueryError} (h : first.error = some error)
    (next : σ → Outcome σ) : first.andThen next = first := by
  unfold andThen
  rw [h]

theorem andThen_state {first : Outcome σ} (h : first.error = none) (next : σ → Outcome σ) :
    (first.andThen next).state = (next first.state).state := by
  unfold andThen
  rw [h]

theorem andThen_error {first : Outcome σ} (h : first.error = none) (next : σ → Outcome σ) :
    (first.andThen next).error = (next first.state).error := by
  unfold andThen
  rw [h]

theorem andThen_error_eq_none {first : Outcome σ} {next : σ → Outcome σ} :
    (first.andThen next).error = none ↔ first.error = none ∧ (next first.state).error = none := by
  unfold andThen
  split <;> simp_all

/-! ## Outcomes but for their notes -/

/-- Both ended in the same error or in none, in states that are related. -/
def Related (R : σ → τ → Prop) (first : Outcome σ) (second : Outcome τ) : Prop :=
  R first.state second.state ∧ first.error = second.error

section

variable {R : σ → τ → Prop} {first : Outcome σ} {second : Outcome τ}

theorem Related.andThen (h : Related R first second) {next : σ → Outcome σ} {other : τ → Outcome τ}
    (hnext : first.error = none → Related R (next first.state) (other second.state)) :
    Related R (first.andThen next) (second.andThen other) := by
  unfold Outcome.andThen
  rw [← h.2]
  split
  · exact h
  · rename_i hnone
    exact hnext hnone

theorem Related.caught (h : Related R first second) : Related R first.caught second.caught :=
  ⟨h.1, rfl⟩

theorem Related.into {inner : Outcome ρ} {other : Outcome υ} (h : inner.error = other.error)
    {outer : σ} {outer' : τ} (houter : R outer outer') {store : ρ → σ} {store' : υ → τ}
    (hstore : inner.error = none → R (store inner.state) (store' other.state)) :
    Related R (inner.into outer store) (other.into outer' store') := by
  unfold Outcome.into
  rw [← h]
  split
  · exact ⟨houter, rfl⟩
  · rename_i hnone
    exact ⟨hstore hnone, rfl⟩

theorem result_congr (herror : first.error = second.error) {finish : σ → α} {finish' : τ → α}
    (hfinish : first.error = none → finish first.state = finish' second.state) :
    first.result finish = second.result finish' := by
  unfold result
  rw [← herror]
  split
  · rfl
  · rename_i hnone
    rw [hfinish hnone]

end

/-- The same but for the notes. -/
def Agrees (first second : Outcome σ) : Prop :=
  first.state = second.state ∧ first.error = second.error

theorem Agrees.refl (outcome : Outcome σ) : Agrees outcome outcome := ⟨rfl, rfl⟩

theorem Agrees.trans {first second third : Outcome σ} (h : Agrees first second)
    (h' : Agrees second third) : Agrees first third := ⟨h.1.trans h'.1, h.2.trans h'.2⟩

theorem andThen_agrees {first : Outcome σ} (h : first.error = none) (next : σ → Outcome σ) :
    Agrees (first.andThen next) (next first.state) := ⟨andThen_state h next, andThen_error h next⟩

theorem Agrees.result {first second : Outcome σ} (h : Agrees first second) (finish : σ → α) :
    first.result finish = second.result finish := result_congr h.2 (fun _ => congrArg finish h.1)

/-! ## Runs -/

/-- What every step keeps, a run keeps, whether it ends in an error or not. -/
theorem runAll_induction {P : σ → Prop} {run : α → σ → Outcome σ} {steps : List α} {state : σ}
    (h : P state) (hstep : ∀ step ∈ steps, ∀ state, P state → P (run step state).state) :
    P (runAll run steps state).state := by
  induction steps generalizing state with
  | nil => exact h
  | cons step rest ih =>
    rw [List.forall_mem_cons] at hstep
    have hnext := hstep.1 state h
    unfold runAll andThen
    split
    · exact hnext
    · exact ih hnext hstep.2

section

variable {run : α → σ → Outcome σ} {first : List α} {state : σ}

theorem runAll_append (h : (runAll run first state).error = none) (second : List α) :
    Agrees (runAll run (first ++ second) state)
      (runAll run second (runAll run first state).state) := by
  induction first generalizing state with
  | nil => exact .refl _
  | cons step rest ih =>
    rw [runAll, andThen_error_eq_none] at h
    rw [List.cons_append, runAll, runAll, andThen_state h.1]
    exact (andThen_agrees h.1 _).trans (ih h.2)

/-- A run that succeeds has succeeded up to each of its steps. -/
theorem error_of_append {second : List α} (h : (runAll run (first ++ second) state).error = none) :
    (runAll run first state).error = none := by
  induction first generalizing state with
  | nil => rfl
  | cons step rest ih =>
    rw [List.cons_append, runAll, andThen_error_eq_none] at h
    rw [runAll, andThen_error_eq_none]
    exact ⟨h.1, ih h.2⟩

end

/-- What a list gets from the first of several steps comes before what it gets from the others. -/
theorem filterMap_cons_toList (f : α → Option τ) (step : α) (rest : List α) :
    (step :: rest).filterMap f = (f step).toList ++ rest.filterMap f := by
  cases h : f step with
  | none => exact List.filterMap_cons_none h
  | some b => exact List.filterMap_cons_some h

end Outcome

end SearchQuery
