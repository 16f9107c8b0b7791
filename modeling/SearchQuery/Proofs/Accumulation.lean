import SearchQuery.Proofs.Operator
import SearchQuery.Proofs.Routing

/-!
# What a field accumulates

The payload of a field is determined by what its steps hand to each operator and to each bound.
Later operands replace earlier ones, entries of lists are all kept, and each key stands where it was
used first. Routing is no part of it.
-/

namespace SearchQuery

open Entries

/-! ## What a step hands over -/

namespace MatchKind

/-- The option is there, and it is neither null nor false. -/
def isOn (key : String) (options : Entries Value) : Bool := (get? key options).any Value.isSet

/-- The kind of match that options ask for. -/
def asked (options : Entries Value) : MatchKind :=
  if isOn "phrase" options then
    if (get? "phrase" options).bind Value.text? = some "prefix" ∨ isOn "prefix" options then
      .phrasePrefix
    else .phrase
  else .plain

/-- What is stored of the options: the text among them, and without those that have been used to
select the kind. -/
def stored (text : Value) (options : Entries Value) : Entries Value :=
  (insert "query" text options).filter (fun e =>
    e.1 ≠ "phrase" ∧ (isOn "phrase" options → e.1 ≠ "prefix"))

/-- The text is none of the options that select. -/
theorem select_insert (text : Value) (options : Entries Value) :
    select (insert "query" text options) = (asked options, stored text options) := by
  have hphrase : get? "phrase" (insert "query" text options) = get? "phrase" options :=
    get?_update_of_ne (by decide) _ _
  have hprefix : get? "prefix" (erase "phrase" (insert "query" text options)) =
      get? "prefix" options :=
    (get?_erase_of_ne (by decide) _).trans (get?_update_of_ne (by decide) _ _)
  unfold select
  dsimp only
  rw [hphrase, hprefix]
  obtain hselector | ⟨selector, hselector⟩ := Option.eq_none_or_eq_some (get? "phrase" options)
  · simp [asked, stored, isOn, hselector, erase]
  · cases hset : selector.isSet with
    | false => simp [asked, stored, isOn, hselector, hset, erase]
    | true =>
      simp [asked, stored, isOn, hselector, hset, erase, List.filter_filter, or_comm,
        Bool.and_comm]

/-- Without `phrase`, a `prefix` selects nothing and stays. -/
example :
    select (insert "query" .null [("prefix", .bool true)]) =
      (.plain, [("prefix", .bool true), ("query", .null)]) := rfl

end MatchKind

/-- An entry of a `terms` list. -/
def termsEntry (name : String) (values : List Value) (minimum : UInt64) : Value :=
  .object (insert "minimum_should_match" (.ofUInt64 minimum) [(name, .array values)])

namespace FieldStep

/-- What the step hands to an operator of the field. A step that fails hands over nothing. -/
def operand? (name : String) : FieldStep → Option (Operator × Value)
  | .is value => some (.term, value)
  | .matching kind text => some (.matching kind, .pair "query" text)
  | .matchingWith text options =>
    (readOptions "match" options).toOption.map (fun options =>
      (.matching (MatchKind.asked options), .object (MatchKind.stored text options)))
  | .matchAll values => some (.terms, termsEntry name values (.ofNat values.length))
  | .matchAny values => some (.terms, termsEntry name values 1)
  | .matchAtLeast values minimum => some (.terms, termsEntry name values minimum)
  | .regex pattern => some (.regex, .pair name (.string pattern))
  | .attempt step => step.operand? name
  | .bound .. | .route _ | .note => none

def bound? : FieldStep → Option (Bound × Value)
  | .bound side value => some (side, value)
  | .attempt step => step.bound?
  | _ => none

end FieldStep

/-! ## What steps amount to -/

/-- What stands under an operator. Lists keep every entry, all others the last operand. -/
def Operator.content (name : String) : Operator → List Value → Value
  | .terms, given | .regex, given => .array given
  | .term, given | .matching _, given | .range, given => .pair name (given.getLastD .null)

theorem Operator.content_of_list {op : Operator} (hop : op.isList = true) (name : String)
    (given : List Value) : op.content name given = .array given := by
  cases op with
  | terms | regex => rfl
  | term | matching | range => cases hop

theorem Operator.content_of_operand {op : Operator} (hop : op.isList = false) (name : String)
    {given : List Value} (h : given ≠ []) :
    op.content name given = .pair name (given.getLast h) := by
  have hlast : given.getLastD .null = given.getLast h := by
    rw [List.getLastD_eq_getLast?, List.getLast?_eq_some_getLast h, Option.getD_some]
  rw [← hlast]
  cases op with
  | terms | regex => cases hop
  | term | matching | range => rfl

/-- The bounds after the calls that set them. -/
def Bound.contents (calls : List (Bound × Value)) : Entries Value :=
  gathered Bound.key (fun _ given => given.getLastD .null) calls

theorem Bound.key_injective {a b : Bound} (h : a.key = b.key) : a = b := by
  cases a <;> cases b <;> simp_all [Bound.key]

theorem Bound.contents_isEmpty (calls : List (Bound × Value)) :
    (Bound.contents calls).isEmpty = calls.isEmpty := by
  cases calls with
  | nil => rfl
  | cons call rest => simp [Bound.contents, gathered, List.eraseDups_cons]

theorem Bound.contents_concat (calls : List (Bound × Value)) (side : Bound) (value : Value) :
    contents (calls ++ [(side, value)]) = insert side.key value (contents calls) :=
  gathered_append key_injective rfl (fun given => by rw [List.getLastD_concat]) calls

/-- The operators that steps amount to, and the range after them if any bound is set. -/
def Clauses.accumulated (name : String) (steps : List FieldStep) : Clauses :=
  let bounds := steps.filterMap FieldStep.bound?
  gathered Operator.key (Operator.content name) (steps.filterMap (FieldStep.operand? name)) ++
    if bounds.isEmpty then [] else [("range", .pair name (.object (Bound.contents bounds)))]

/-! ## One step -/

/-- The field holds what the calls have handed over, and nothing else. -/
structure Field.Holds (name : String) (operands : List (Operator × Value))
    (bounds : List (Bound × Value)) (field : Field) : Prop where
  name_eq : field.name = name
  operators_eq : field.operators = gathered Operator.key (Operator.content name) operands
  bounds_eq : field.bounds = Bound.contents bounds

namespace Field.Holds

variable {name : String} {operands : List (Operator × Value)} {bounds : List (Bound × Value)}
  {field : Field}

theorem new (name : String) (occur : Option Occur) :
    ({ name := name, occur := occur } : Field).Holds name [] [] := ⟨rfl, rfl, rfl⟩

theorem setBound (h : field.Holds name operands bounds) (side : Bound) (value : Value) :
    (field.setBound side value).Holds name operands (bounds ++ [(side, value)]) where
  name_eq := h.name_eq
  operators_eq := h.operators_eq
  bounds_eq := by
    rw [Bound.contents_concat, ← h.bounds_eq]
    rfl

/-- An operator is changed at its own key, and no other is. -/
theorem updateOperator (h : field.Holds name operands bounds) {op : Operator} {operand : Value}
    {f : Option Value → Value} (hfirst : f none = op.content name [operand])
    (hmore : ∀ given, f (some (op.content name given)) = op.content name (given ++ [operand])) :
    ({ field with operators := update op.key f field.operators } : Field).Holds name
      (operands ++ [(op, operand)]) bounds where
  name_eq := h.name_eq
  operators_eq := by
    rw [gathered_append Operator.key_injective hfirst hmore, ← h.operators_eq]
  bounds_eq := h.bounds_eq

theorem setOperator (h : field.Holds name operands bounds) (op : Operator)
    (hop : ∀ given, op.content name given = .pair name (given.getLastD .null)) (operand : Value) :
    (field.setOperator op.key operand).Holds name (operands ++ [(op, operand)]) bounds := by
  obtain rfl := h.name_eq
  refine h.updateOperator ?_ (fun given => ?_)
  · rw [hop]
    rfl
  · rw [hop, hop, List.getLastD_concat]
    simp [Value.pair, Value.entries, Entries.insert, update]

theorem addEntry (h : field.Holds name operands bounds) (op : Operator)
    (hop : ∀ given, op.content name given = .array given) (entry : Value) :
    (field.addEntry op.key entry).Holds name (operands ++ [(op, entry)]) bounds :=
  h.updateOperator (by rw [hop]; rfl) (fun given => by rw [hop, hop]; rfl)

theorem addTerms (h : field.Holds name operands bounds) (values : List Value) (minimum : UInt64) :
    (field.addTerms values minimum).Holds name
      (operands ++ [(.terms, termsEntry name values minimum)]) bounds := by
  obtain rfl := h.name_eq
  exact h.addEntry .terms (fun _ => rfl) _

/-- A step adds what it hands over to what is there. -/
theorem run (h : field.Holds name operands bounds) (step : FieldStep) :
    (step.run field).state.Holds name (operands ++ (step.operand? name).toList)
      (bounds ++ step.bound?.toList) := by
  -- What the step hands over is written out. Where that is nothing, the lists stay as they were.
  induction step <;> simp only [FieldStep.operand?, FieldStep.bound?, Option.toList_some,
    Option.toList_none, List.append_nil]
  case bound side value => exact h.setBound side value
  case «is» value => exact h.setOperator .term (fun _ => rfl) value
  case matching kind text => exact h.setOperator (.matching kind) (fun _ => rfl) _
  case matchingWith text options =>
    rw [FieldStep.run]
    cases hread : readOptions "match" options with
    | error error =>
      rw [Field.setMatchWith_of_error hread]
      simp only [Except.toOption, Option.map_none, Option.toList_none, List.append_nil]
      exact h
    | ok read =>
      rw [Field.setMatchWith_of_ok hread, MatchKind.select_insert]
      exact h.setOperator (.matching (MatchKind.asked read)) (fun _ => rfl) _
  case matchAll values => exact h.addTerms values _
  case matchAny values => exact h.addTerms values 1
  case matchAtLeast values minimum => exact h.addTerms values minimum
  case regex pattern =>
    obtain rfl := h.name_eq
    exact h.addEntry .regex (fun _ => rfl) _
  case route occur => exact ⟨h.name_eq, h.operators_eq, h.bounds_eq⟩
  case note => exact h
  case attempt step ih => exact ih

/-! ## Runs -/

theorem runAll (h : field.Holds name operands bounds) {steps : List FieldStep}
    (hsteps : ∀ step ∈ steps, step.fails = false) :
    (FieldStep.runAll steps field).state.Holds name
      (operands ++ steps.filterMap (FieldStep.operand? name))
      (bounds ++ steps.filterMap FieldStep.bound?) := by
  induction steps generalizing field operands bounds with
  | nil =>
    rw [List.filterMap_nil, List.filterMap_nil, List.append_nil, List.append_nil]
    exact h
  | cons step rest ih =>
    rw [List.forall_mem_cons] at hsteps
    have hcons : ∀ {γ : Type} (f : FieldStep → Option γ),
        (step :: rest).filterMap f = (f step).toList ++ rest.filterMap f := by
      intro γ f
      rw [List.filterMap_cons]
      cases f step <;> rfl
    have hrest := ih (h.run step) hsteps.2
    rw [FieldStep.runAll_cons hsteps.1, hcons, hcons, ← List.append_assoc, ← List.append_assoc]
    exact hrest

end Field.Holds

namespace FieldStep

variable {step : FieldStep} {steps : List FieldStep} {name : String}

theorem operand?_ne_range {call : Operator × Value} (h : step.operand? name = some call) :
    call.1 ≠ .range := by
  induction step with
  | attempt step ih => exact ih h
  | matchingWith text options =>
    obtain ⟨read, -, rfl⟩ := Option.map_eq_some_iff.1 h
    nofun
  | bound | route | note => cases h
  | _ =>
    cases h
    nofun

theorem range_not_mem_operands (name : String) (steps : List FieldStep) :
    Operator.range ∉ (steps.filterMap (operand? name)).map Prod.fst := by
  intro hmem
  obtain ⟨call, hcall, hrange⟩ := List.mem_map.1 hmem
  obtain ⟨step, -, hstep⟩ := List.mem_filterMap.1 hcall
  exact operand?_ne_range hstep hrange

/-- Routing hands nothing over. -/
theorem idle_of_occur? (h : step.occur? ≠ none) (name : String) :
    step.operand? name = none ∧ step.bound? = none := by
  induction step with
  | attempt step ih => exact ih h
  | route occur => exact ⟨rfl, rfl⟩
  | _ => exact absurd rfl h

theorem accumulated_unrouted (name : String) (steps : List FieldStep) :
    Clauses.accumulated name (steps.filter (fun step => step.occur?.isNone)) =
      Clauses.accumulated name steps := by
  have hkeep : ∀ {γ : Type} (f : FieldStep → Option γ),
      (∀ step : FieldStep, step.occur? ≠ none → f step = none) →
      (steps.filter (fun step => step.occur?.isNone)).filterMap f = steps.filterMap f := by
    intro γ f hf
    rw [List.filterMap_filter]
    congr 1
    funext step
    cases hoccur : step.occur? with
    | none => rfl
    | some occur => exact (hf step (by simp [hoccur])).symm
  unfold Clauses.accumulated
  rw [hkeep _ (fun _ h => (idle_of_occur? h name).1),
    hkeep _ (fun _ h => (idle_of_occur? h name).2)]

/-! ## Caught steps -/

theorem attempts_succeed (steps : List FieldStep) :
    ∀ step ∈ steps.map FieldStep.attempt, step.fails = false := by
  intro step hstep
  obtain ⟨inner, -, rfl⟩ := List.mem_map.1 hstep
  rfl

theorem runAll_attempts (h : ∀ step ∈ steps, step.fails = false) (field : Field) :
    (runAll (steps.map .attempt) field).state = (runAll steps field).state := by
  induction steps generalizing field with
  | nil => rfl
  | cons step rest ih =>
    rw [List.forall_mem_cons] at h
    rw [List.map_cons, runAll_cons rfl, runAll_cons h.1]
    exact ih h.2 _

theorem accumulated_attempts (name : String) (steps : List FieldStep) :
    Clauses.accumulated name (steps.map .attempt) = Clauses.accumulated name steps := by
  unfold Clauses.accumulated
  rw [List.filterMap_map, List.filterMap_map]
  rfl

end FieldStep

namespace Clauses

/-! ## What stands at one operator -/

/-- What the steps hand to an operator. -/
def operands (name : String) (op : Operator) (steps : List FieldStep) : List Value :=
  givenTo op (steps.filterMap (FieldStep.operand? name))

theorem operands_append (name : String) (op : Operator) (first second : List FieldStep) :
    operands name op (first ++ second) = operands name op first ++ operands name op second := by
  simp [operands, givenTo, List.filterMap_append]

theorem get?_accumulated {op : Operator} (hop : op ≠ .range) (name : String)
    (steps : List FieldStep) :
    get? op.key (accumulated name steps) =
      if operands name op steps = [] then none
      else some (op.content name (operands name op steps)) := by
  have hrange : "range" ≠ op.key := fun hkey => hop (Operator.key_injective (a := op) hkey.symm)
  have hafter : get? op.key (if (steps.filterMap FieldStep.bound?).isEmpty then []
      else [("range", Value.pair name (.object
        (Bound.contents (steps.filterMap FieldStep.bound?))))]) = none := by
    split
    · rfl
    · rw [get?_cons, if_neg hrange, get?_nil]
  unfold accumulated
  rw [get?_append, get?_gathered Operator.key_injective, hafter, Option.or_none]
  rfl

theorem get?_range_accumulated (name : String) (steps : List FieldStep) :
    get? Operator.range.key (accumulated name steps) =
      if steps.filterMap FieldStep.bound? = [] then none
      else some (.pair name (.object (Bound.contents (steps.filterMap FieldStep.bound?)))) := by
  have hbefore : get? Operator.range.key (gathered Operator.key (Operator.content name)
      (steps.filterMap (FieldStep.operand? name))) = none := by
    rw [get?_eq_none_iff, mem_keys_gathered Operator.key_injective]
    exact FieldStep.range_not_mem_operands name steps
  unfold accumulated
  rw [get?_append, hbefore, Option.none_or]
  cases steps.filterMap FieldStep.bound? <;> rfl

end Clauses

namespace Field

/-! ## The payload -/

/-- No step hands anything to the range, so the bounds come last. -/
theorem Holds.payload {name : String} {steps : List FieldStep} {field : Field}
    (h : field.Holds name (steps.filterMap (FieldStep.operand? name))
      (steps.filterMap FieldStep.bound?)) : field.payload = Clauses.accumulated name steps := by
  have hrange : Operator.range.key ∉ keys field.operators := by
    rw [h.operators_eq, mem_keys_gathered Operator.key_injective]
    exact FieldStep.range_not_mem_operands name steps
  unfold Field.payload Clauses.accumulated
  dsimp only
  rw [h.bounds_eq, Bound.contents_isEmpty, ← h.operators_eq, h.name_eq]
  split
  · rw [List.append_nil]
  · exact update_of_not_mem hrange _

theorem name_runAll (name : String) (occur : Option Occur) (steps : List FieldStep) :
    (FieldStep.runAll steps { name := name, occur := occur }).state.name = name := by
  rw [← FieldStep.runAll_taken]
  exact ((Holds.new name occur).runAll (FieldStep.taken_succeed steps)).name_eq

/-- A failure that is not caught leaves the field to the steps before it. -/
theorem payload_runAll (name : String) (occur : Option Occur) (steps : List FieldStep) :
    (FieldStep.runAll steps { name := name, occur := occur }).state.payload =
      Clauses.accumulated name (FieldStep.taken steps) := by
  rw [← FieldStep.runAll_taken]
  exact ((Holds.new name occur).runAll (FieldStep.taken_succeed steps)).payload

/-- Steps that are caught when they fail leave a field with the payload they amount to, in the group
that the last routing names. Routing can be put in and taken out anywhere without changing the
payload. A failure that is not caught leaves the field to the steps before it. -/
theorem payload_accumulates (name : String) (occur : Option Occur) (steps : List FieldStep) :
    let start : Field := { name := name, occur := occur }
    let outcome := FieldStep.runAll (steps.map .attempt) start
    outcome.error = none ∧
    outcome.state.payload = Clauses.accumulated name steps ∧
    outcome.state.occur = (steps.filterMap FieldStep.occur?).getLast?.or occur ∧
    (FieldStep.runAll steps start).state =
      (FieldStep.runAll ((FieldStep.taken steps).map .attempt) start).state ∧
    ∀ other : List FieldStep,
      other.filter (fun step => step.occur?.isNone) =
        steps.filter (fun step => step.occur?.isNone) →
      (FieldStep.runAll (other.map .attempt) start).state.payload = outcome.state.payload := by
  have hpayload : ∀ steps : List FieldStep,
      (FieldStep.runAll (steps.map .attempt)
        ({ name := name, occur := occur } : Field)).state.payload =
        Clauses.accumulated name steps := by
    intro steps
    rw [← FieldStep.accumulated_attempts]
    exact ((Holds.new name occur).runAll (FieldStep.attempts_succeed steps)).payload
  refine ⟨FieldStep.runAll_error (FieldStep.attempts_succeed steps) _, hpayload steps, ?_, ?_, ?_⟩
  · rw [FieldStep.runAll_unrouted (FieldStep.attempts_succeed steps) none, List.filterMap_map]
    rfl
  · rw [FieldStep.runAll_attempts (FieldStep.taken_succeed steps), FieldStep.runAll_taken]
  · intro other hother
    rw [hpayload, hpayload, ← FieldStep.accumulated_unrouted name other, hother,
      FieldStep.accumulated_unrouted]

theorem payload_accumulates_mixed :
    let steps : List FieldStep :=
      [ .gte (.integer 1), .mustNot, .is (.string "a"),
        .matchingWith (.string "b") (.object [("phrase", .string "prefix"), ("slop", .bool true)]),
        .matchAny [.integer 2], .matchingWith (.string "c") (.bool true), .should, .lt (.integer 9),
        .phrase (.string "d"), .gte (.integer 3), .is (.string "e"), .matchAll [.null, .null] ]
    let other := .must :: steps.filter (fun step => step.occur?.isNone)
    let start : Field := { name := "f" }
    let outcome := FieldStep.runAll (steps.map .attempt) start
    outcome.state.payload =
      [ ("term", .pair "f" (.string "e")),
        ("match_phrase_prefix", .pair "f" (.object [("slop", .bool true), ("query", .string "b")])),
        ("terms", .array
          [ .object [("f", .array [.integer 2]), ("minimum_should_match", .integer 1)],
            .object [("f", .array [.null, .null]), ("minimum_should_match", .integer 2)] ]),
        ("match_phrase", .pair "f" (.pair "query" (.string "d"))),
        ("range", .pair "f" (.object [("gte", .integer 3), ("lt", .integer 9)])) ] ∧
    outcome.state.occur = some .should ∧
    (FieldStep.runAll (other.map .attempt) start).state.payload = outcome.state.payload := by
  intro steps other start outcome
  obtain ⟨-, hpayload, hoccur, -, hother⟩ := payload_accumulates "f" none steps
  exact ⟨hpayload.trans rfl, hoccur, hother other rfl⟩

end Field

end SearchQuery
