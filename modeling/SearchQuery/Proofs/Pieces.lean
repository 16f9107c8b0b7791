import SearchQuery.Proofs.Names

/-!
# Fields in pieces

A field can be declared in pieces. What the pieces leave is merged, and within one piece a later
operand replaces an earlier one. The two come to the same as long as the operands are no objects or
arrays, and the field neither takes options nor gets a group. Only the order of the clauses can
differ, because the bounds of each piece come after its operators.
-/

namespace SearchQuery

open Entries

/-- The same object up to the order of its keys. -/
def Document.Reordered (first second : Document) : Prop :=
  ∃ entries others, first = .object entries ∧ second = .object others ∧ Distinct entries ∧
    entries.Perm others

/-! ## Steps that can be done in pieces -/

/-- Steps that hand over no objects or arrays where one operand replaces another, and leave the field
without a group. -/
def FieldStep.joins : FieldStep → Bool
  | .bound _ value | .is value | .matching _ value => value.shape = .leaf
  | .matchAll _ | .matchAny _ | .matchAtLeast .. | .regex _ | .note => true
  | .matchingWith .. | .route _ => false
  | .attempt step => step.joins

/-- What such steps hand to an operator, and what the range of a field holds after them. -/
def Operator.Takes : Operator → Value → Prop
  | .term, operand => operand.shape = .leaf
  | .matching _, operand => ∃ text, operand = .pair "query" text ∧ text.shape = .leaf
  | .range, operand =>
    ∃ bounds, operand = .object bounds ∧ Distinct bounds ∧ ∀ e ∈ bounds, e.2.shape = .leaf
  | .terms, _ | .regex, _ => True

namespace FieldStep

variable {step : FieldStep}

theorem succeeds_of_joins (h : step.joins) : step.fails = false := by
  cases step with
  | matchingWith => cases h
  | _ => rfl

theorem occur?_of_joins (h : step.joins) : step.occur? = none := by
  induction step with
  | attempt step ih => exact ih h
  | route => cases h
  | _ => rfl

theorem joins_flatten {pieces : List (List FieldStep)}
    (h : ∀ piece ∈ pieces, ∀ step ∈ piece, step.joins) : ∀ step ∈ pieces.flatten, step.joins := by
  intro step hstep
  obtain ⟨piece, hpiece, hmem⟩ := List.mem_flatten.1 hstep
  exact h piece hpiece step hmem

theorem leaf_of_bound? (h : step.joins) : ∀ call ∈ step.bound?, call.2.shape = .leaf := by
  induction step with
  | attempt step ih => exact ih h
  | bound side value =>
    intro call hcall
    obtain rfl := Option.some.inj hcall
    exact of_decide_eq_true h
  | _ => exact nofun

theorem takes_of_operand? (h : step.joins) (name : String) :
    ∀ call ∈ step.operand? name, call.1.Takes call.2 := by
  induction step with
  | attempt step ih => exact ih h
  | «is» value =>
    intro call hcall
    obtain rfl := Option.some.inj hcall
    change value.shape = .leaf
    exact of_decide_eq_true h
  | matching kind text =>
    intro call hcall
    obtain rfl := Option.some.inj hcall
    exact ⟨text, rfl, of_decide_eq_true h⟩
  | matchAll | matchAny | matchAtLeast | regex =>
    intro call hcall
    obtain rfl := Option.some.inj hcall
    trivial
  | matchingWith | route => cases h
  | bound | note => exact nofun

end FieldStep

/-! ## What stands at an operator -/

namespace Operator

variable {op : Operator} {name : String} {a b : Value}

theorem Takes.compatible (hop : op.isList = false) (ha : op.Takes a) (hb : op.Takes b) :
    Value.Compatible a b := by
  cases op with
  | terms | regex => cases hop
  | term => exact .leaves ha hb
  | matching kind =>
    obtain ⟨first, rfl, hfirst⟩ := ha
    obtain ⟨second, rfl, hsecond⟩ := hb
    exact (Value.Compatible.leaves hfirst hsecond).pair "query"
  | range =>
    obtain ⟨first, rfl, -, hfirst⟩ := ha
    obtain ⟨second, rfl, -, hsecond⟩ := hb
    exact Value.compatible_of_leaves hfirst hsecond

theorem Takes.hasDistinctKeys (hop : op.isList = false) (ha : op.Takes a) :
    a.hasDistinctKeys := by
  cases op with
  | terms | regex => cases hop
  | term => exact Value.hasDistinctKeys_of_leaf ha
  | matching kind =>
    obtain ⟨text, rfl, htext⟩ := ha
    exact Value.hasDistinctKeys_pair (Value.hasDistinctKeys_of_leaf htext) "query"
  | range =>
    obtain ⟨bounds, rfl, hdistinct, hbounds⟩ := ha
    exact (Value.hasDistinctKeys_object_iff bounds).2
      ⟨hdistinct, fun e he => Value.hasDistinctKeys_of_leaf (hbounds e he)⟩

/-- The later operand stays. Only bounds are joined. -/
theorem Takes.merge (hop : op.isList = false) (hrange : op ≠ .range) (ha : op.Takes a)
    (hb : op.Takes b) : Value.merge a b = b := by
  cases op with
  | terms | regex => cases hop
  | range => exact absurd rfl hrange
  | term => exact Value.merge_of_shape a (fun _ => hb)
  | matching kind =>
    obtain ⟨first, rfl, -⟩ := ha
    obtain ⟨second, rfl, hsecond⟩ := hb
    rw [Value.merge_pair, Value.merge_of_shape first (fun _ => hsecond)]

/-- What an operator holds for such steps. -/
inductive Holds (name : String) (op : Operator) : Value → Prop where
  | list (hop : op.isList = true) (items : List Value) : Holds name op (.array items)
  | operand (hop : op.isList = false) {operand : Value} (h : op.Takes operand) :
    Holds name op (.pair name operand)

theorem Holds.compatible (ha : op.Holds name a) (hb : op.Holds name b) :
    Value.Compatible a b := by
  cases ha with
  | list hop items =>
    cases hb with
    | list _ more => exact .arrays items more
    | operand hop' => exact absurd (hop.symm.trans hop') nofun
  | operand hop ha =>
    cases hb with
    | list hop' => exact absurd (hop.symm.trans hop') nofun
    | operand _ hb => exact (ha.compatible hop hb).pair name

theorem Holds.hasDistinctKeys (ha : op.Holds name a) : a.hasDistinctKeys := by
  cases ha with
  | list => rfl
  | operand hop ha => exact Value.hasDistinctKeys_pair (ha.hasDistinctKeys hop) name

theorem holds_content {given : List Value} (h : given ≠ []) (htakes : ∀ x ∈ given, op.Takes x)
    (name : String) : op.Holds name (op.content name given) := by
  cases hop : op.isList with
  | true =>
    rw [content_of_list hop]
    exact .list hop given
  | false =>
    rw [content_of_operand hop name h]
    exact .operand hop (htakes _ (List.getLast_mem h))

/-- Operands in two parts leave what the parts leave when they are merged. -/
theorem content_append (hrange : op ≠ .range) {first second : List Value} (hfirst : first ≠ [])
    (hsecond : second ≠ []) (htakes : ∀ x ∈ first ++ second, op.Takes x) :
    op.content name (first ++ second) =
      Value.merge (op.content name first) (op.content name second) := by
  cases hop : op.isList with
  | true =>
    rw [content_of_list hop, content_of_list hop, content_of_list hop]
    rfl
  | false =>
    have ha := htakes _ (List.mem_append_left second (List.getLast_mem hfirst))
    have hb := htakes _ (List.mem_append_right first (List.getLast_mem hsecond))
    rw [content_of_operand hop name hfirst, content_of_operand hop name hsecond,
      content_of_operand hop name (List.append_ne_nil_of_right_ne_nil first hsecond),
      List.getLast_append_right hsecond, Value.merge_pair, ha.merge hop hrange hb]

end Operator

namespace Bound

variable {calls first second : List (Bound × Value)}

theorem leaf_contents (h : ∀ call ∈ calls, call.2.shape = .leaf) :
    ∀ e ∈ contents calls, e.2.shape = .leaf := by
  intro e he
  obtain ⟨side, -, rfl⟩ := List.mem_map.1 he
  have hlast : (givenTo side calls).getLastD .null ∈ Value.null :: givenTo side calls :=
    List.getLastD_mem_cons
  rcases List.mem_cons.1 hlast with hnull | hmem
  · change ((givenTo side calls).getLastD .null).shape = .leaf
    rw [hnull]
    rfl
  · obtain ⟨call, hcall, hgiven⟩ := List.mem_filterMap.1 hmem
    obtain ⟨-, hvalue⟩ : call.1 = side ∧ call.2 = (givenTo side calls).getLastD .null := by
      simpa using hgiven
    exact (congrArg Value.shape hvalue).symm.trans (h call hcall)

theorem contents_append (first : List (Bound × Value)) (h : ∀ call ∈ second, call.2.shape = .leaf) :
    contents (first ++ second) = Value.mergeEntries (contents first) (contents second) := by
  induction second generalizing first with
  | nil =>
    change contents (first ++ []) = Value.mergeEntries (contents first) []
    rw [List.append_nil, Value.mergeEntries]
  | cons call rest ih =>
    rw [List.forall_mem_cons] at h
    -- Setting one bound is a merge too, and what leaves are merged into first is no matter.
    have hcall : contents [call] = [(call.1.key, call.2)] := contents_concat [] call.1 call.2
    have hone : contents (first ++ [call]) =
        Value.mergeEntries (contents first) (contents [call]) := by
      rw [hcall, Value.mergeEntries_leaf h.1]
      exact contents_concat first call.1 call.2
    have hrest : contents (call :: rest) =
        Value.mergeEntries (contents [call]) (contents rest) := ih [call] h.2
    rw [List.append_cons, ih (first ++ [call]) h.2, hone, hrest]
    exact Value.mergeEntries_assoc (distinct_gathered key_injective _ _)
      (distinct_gathered key_injective _ _)
      (fun key b c _ hc a => Value.merge_assoc_leaf a b (leaf_contents h.2 _ (mem_of_get? hc))) _

end Bound

namespace Clauses

variable {name : String} {op : Operator} {steps first second : List FieldStep}

theorem takes_operands (h : ∀ step ∈ steps, step.joins) :
    ∀ x ∈ operands name op steps, op.Takes x := by
  intro x hx
  obtain ⟨call, hcall, hgiven⟩ := List.mem_filterMap.1 hx
  obtain ⟨rfl, rfl⟩ : call.1 = op ∧ call.2 = x := by simpa using hgiven
  obtain ⟨step, hstep, hown⟩ := List.mem_filterMap.1 hcall
  exact FieldStep.takes_of_operand? (h step hstep) name call hown

theorem leaf_bounds (h : ∀ step ∈ steps, step.joins) :
    ∀ call ∈ steps.filterMap FieldStep.bound?, call.2.shape = .leaf := by
  intro call hcall
  obtain ⟨step, hstep, hown⟩ := List.mem_filterMap.1 hcall
  exact FieldStep.leaf_of_bound? (h step hstep) call hown

theorem holds_accumulated (h : ∀ step ∈ steps, step.joins) :
    ∀ value ∈ get? op.key (accumulated name steps), op.Holds name value := by
  intro value hvalue
  by_cases hrange : op = .range
  · subst hrange
    rw [get?_range_accumulated] at hvalue
    split at hvalue
    · cases hvalue
    · obtain rfl := Option.some.inj hvalue
      exact .operand rfl ⟨_, rfl, distinct_gathered Bound.key_injective _ _,
        Bound.leaf_contents (leaf_bounds h)⟩
  · rw [get?_accumulated hrange] at hvalue
    split at hvalue
    · cases hvalue
    · rename_i hgiven
      obtain rfl := Option.some.inj hvalue
      exact op.holds_content hgiven (takes_operands h) name

/-- Steps in two parts leave at each operator what the parts leave when they are merged. -/
theorem get?_accumulated_append (hfirst : ∀ step ∈ first, step.joins)
    (hsecond : ∀ step ∈ second, step.joins) :
    get? op.key (accumulated name (first ++ second)) =
      Value.mergeAt? (get? op.key (accumulated name first))
        (get? op.key (accumulated name second)) := by
  by_cases hrange : op = .range
  · subst hrange
    simp only [get?_range_accumulated, List.filterMap_append]
    refine Value.mergeAt?_parts (fun bounds => .pair name (.object (Bound.contents bounds)))
      (fun _ _ => ?_)
    rw [Bound.contents_append _ (leaf_bounds hsecond), Value.merge_pair]
    rfl
  · simp only [get?_accumulated hrange, operands_append]
    refine Value.mergeAt?_parts (op.content name)
      (fun hx hy => op.content_append hrange hx hy ?_)
    rw [List.forall_mem_append]
    exact ⟨takes_operands hfirst, takes_operands hsecond⟩

end Clauses

/-! ## One piece more -/

/-- A field as a declaration with these steps leaves it, outside of a root. -/
def Field.declared (name : String) (steps : List FieldStep) : Field :=
  (FieldStep.runAll steps { name := name }).state

namespace Field

variable {name : String} {steps : List FieldStep}

theorem sound_declared (name : String) (steps : List FieldStep) : (declared name steps).Sound :=
  (sound_new name none).runAll steps

theorem occur_declared (h : ∀ step ∈ steps, step.joins) : (declared name steps).occur = none := by
  refine Outcome.runAll_induction (P := fun field : Field => field.occur = none) rfl ?_
  intro step hstep field hfield
  have hrun := congrArg Field.occur (step.run_occur field.occur field)
  rw [FieldStep.occur?_of_joins (h step hstep), Option.none_or] at hrun
  exact hrun.trans hfield

theorem payload_declared (h : ∀ step ∈ steps, step.joins) :
    (declared name steps).payload = Clauses.accumulated name steps :=
  ((Holds.new name none).runAll
    (fun step hstep => FieldStep.succeeds_of_joins (h step hstep))).payload

end Field

namespace Draft

variable {name : String} {steps first second : List FieldStep}

theorem get?_place_declared (h : ∀ step ∈ steps, step.joins) (key : String) (clauses : Clauses) :
    get? key (place clauses (.declared name steps)) =
      Value.mergeAt? (get? key clauses) (get? key (Clauses.accumulated name steps)) := by
  rw [← Field.payload_declared h]
  exact Clauses.get?_place (Field.occur_declared h) (Field.sound_declared name steps) key clauses

/-- At each operator the clauses are merged with the first piece and then with the second, or with
what the two make together. -/
theorem agree_place_append (hfirst : ∀ step ∈ first, step.joins)
    (hsecond : ∀ step ∈ second, step.joins) (clauses : Clauses) :
    Agree (place (place clauses (.declared name first)) (.declared name second))
      (place clauses (.declared name (first ++ second))) := by
  intro key
  have hboth : ∀ step ∈ first ++ second, step.joins := List.forall_mem_append.2 ⟨hfirst, hsecond⟩
  rw [get?_place_declared hsecond, get?_place_declared hfirst, get?_place_declared hboth]
  by_cases hkey : ∃ op : Operator, op.key = key
  · obtain ⟨op, rfl⟩ := hkey
    have ha : ∀ a ∈ get? op.key (Clauses.accumulated name first), op.Holds name a :=
      Clauses.holds_accumulated hfirst
    have hb : ∀ b ∈ get? op.key (Clauses.accumulated name second), op.Holds name b :=
      Clauses.holds_accumulated hsecond
    rw [Clauses.get?_accumulated_append hfirst hsecond, Value.mergeAt?_assoc
      (fun a hx b hy => (ha a hx).compatible (hb b hy)) (fun a hx => (ha a hx).hasDistinctKeys)
      (fun b hy => (hb b hy).hasDistinctKeys)]
  · have hnone : ∀ steps : List FieldStep, (∀ step ∈ steps, step.joins) →
        get? key (Clauses.accumulated name steps) = none := by
      intro steps hsteps
      rw [← Field.payload_declared hsteps, get?_eq_none_iff]
      exact Field.not_mem_keys_payload (Field.sound_declared name steps)
        (fun op hop => hkey ⟨op, hop⟩)
    rw [hnone first hfirst, hnone second hsecond, hnone _ hboth]
    rfl

theorem agree_place_pieces {pieces : List (List FieldStep)}
    (h : ∀ piece ∈ pieces, ∀ step ∈ piece, step.joins) (clauses : Clauses) :
    Agree ((pieces.map (Field.declared name)).foldl place clauses)
      (place clauses (.declared name pieces.flatten)) := by
  induction pieces generalizing clauses with
  | nil =>
    have hnil : ∀ step ∈ ([] : List FieldStep), step.joins := nofun
    exact fun key => (get?_place_declared hnil key clauses).symm
  | cons piece rest ih =>
    rw [List.forall_mem_cons] at h
    exact (ih h.2 (place clauses (.declared name piece))).trans
      (agree_place_append h.1 (FieldStep.joins_flatten h.2) clauses)

/-! ## Fields after them -/

variable {clauses others : Clauses}

theorem agree_place (h : Agree clauses others) {field : Field} (hsound : field.Sound) :
    Agree (place clauses field) (place others field) := by
  cases hoccur : field.occur with
  | none =>
    intro key
    rw [Clauses.get?_place hoccur hsound, Clauses.get?_place hoccur hsound, h key]
  | some occur =>
    unfold place
    rw [hoccur]
    exact h.update "bool" _

theorem agree_foldl_place (h : Agree clauses others) {fields : List Field}
    (hsound : ∀ field ∈ fields, field.Sound) :
    Agree (fields.foldl place clauses) (fields.foldl place others) := by
  induction fields generalizing clauses others with
  | nil => exact h
  | cons field rest ih =>
    rw [List.forall_mem_cons] at hsound
    exact ih (agree_place h hsound.1) hsound.2

end Draft

/-! ## Programs -/

section

variable {name : String} {pieces : List (List FieldStep)}

theorem declaredFields_pieces (name : String) (pieces : List (List FieldStep)) :
    declaredFields false (pieces.map (fun piece => .call (.field name piece))) =
      pieces.map (Field.declared name) := by
  induction pieces with
  | nil => rfl
  | cons piece rest ih => exact congrArg (Field.declared name piece :: ·) ih

theorem pieces_succeed (h : ∀ piece ∈ pieces, ∀ step ∈ piece, step.joins) :
    ∀ step ∈ pieces.map (fun piece => Step.call (.field name piece)),
      step.kind = .declaration ∧ ∀ draft, (step.run draft).error = none := by
  intro step hstep
  obtain ⟨piece, hpiece, rfl⟩ := List.mem_map.1 hstep
  exact ⟨rfl, fun draft => FieldStep.runAll_error
    (fun step hstep => FieldStep.succeeds_of_joins (h piece hpiece step hstep)) _⟩

theorem agree_declaredFields (name : String) (before after : List Step)
    (h : ∀ piece ∈ pieces, ∀ step ∈ piece, step.joins) (clauses : Clauses) :
    let split := before ++ pieces.map (fun piece => .call (.field name piece)) ++ after
    let whole := before ++ [.call (.field name pieces.flatten)] ++ after
    Agree ((declaredFields false split).foldl Draft.place clauses)
      ((declaredFields false whole).foldl Draft.place clauses) := by
  intro split whole
  have hsplit : declaredFields false split = declaredFields false before ++
      pieces.map (Field.declared name) ++ declaredFields false after := by
    rw [declaredFields_append, declaredFields_append, declaredFields_pieces]
  have hwhole : declaredFields false whole = declaredFields false before ++
      [Field.declared name pieces.flatten] ++ declaredFields false after := by
    rw [declaredFields_append, declaredFields_append]
    rfl
  rw [hsplit, hwhole, List.foldl_append, List.foldl_append, List.foldl_append, List.foldl_append]
  exact Draft.agree_foldl_place (Draft.agree_place_pieces h _) (sound_declaredFields false after)

theorem reordered_of_agree {first second : Clauses} (h : Agree first second)
    (hfirst : Distinct first) (hsecond : Distinct second) :
    (Value.object first).resolve.Reordered (Value.object second).resolve := by
  refine ⟨_, _, rfl, rfl, Value.distinct_resolveEntries hfirst, ?_⟩
  rw [Value.resolveEntries_eq_map, Value.resolveEntries_eq_map]
  exact (h.perm hfirst hsecond).map _

theorem distinct_allClauses (steps : List Step) :
    Distinct (Step.runAll steps .group).state.allClauses :=
  (Step.sound_runAll steps (Draft.sound_new false)).allClauses.1

/-- Declaring a field in pieces is declaring it once with all the steps, whatever comes before and
after. Both fail with the same error, or build the same document up to the order of its keys. -/
theorem pieces_make_whole (name : String) (before after : List Step)
    (h : ∀ piece ∈ pieces, ∀ step ∈ piece, step.joins) :
    let split := before ++ pieces.map (fun piece => .call (.field name piece)) ++ after
    let whole := before ++ [.call (.field name pieces.flatten)] ++ after
    (∀ error, buildGroup split = .error error ↔ buildGroup whole = .error error) ∧
    ∀ d, buildGroup split = .ok d →
      ∃ other, buildGroup whole = .ok other ∧ d.Reordered other := by
  intro split whole
  have hflatten : ∀ piece ∈ [pieces.flatten], ∀ step ∈ piece, step.joins := by
    simpa using FieldStep.joins_flatten h
  have hsplit : Outcome.Related Draft.SameClauses (Step.runAll split .group)
      (Step.runAll (before ++ after) .group) :=
    Step.sameClauses_insert (pieces_succeed h) before after rfl
  have hwhole : Outcome.Related Draft.SameClauses (Step.runAll whole .group)
      (Step.runAll (before ++ after) .group) :=
    Step.sameClauses_insert (pieces_succeed hflatten) before after rfl
  have herror := hsplit.2.trans hwhole.2.symm
  refine ⟨fun error => ?_, fun d hd => ?_⟩
  · unfold buildGroup
    rw [Outcome.result_eq_error, Outcome.result_eq_error, herror]
  · have hnone := (Outcome.result_eq_ok.1 hd).1
    have hother : buildGroup whole = .ok (Step.runAll whole .group).state.document :=
      Outcome.result_eq_ok.2 ⟨herror.symm.trans hnone, rfl⟩
    refine ⟨_, hother, ?_⟩
    rw [buildGroup_eq_object hd, buildGroup_eq_object hother]
    refine reordered_of_agree ?_ (distinct_allClauses split) (distinct_allClauses whole)
    rw [allClauses_runAll hnone, allClauses_runAll (herror.symm.trans hnone),
      hsplit.1.clauses_eq, hwhole.1.clauses_eq]
    exact agree_declaredFields name before after h _

/-- In pieces the range comes before the lists, and otherwise at the end. The object and the options
that stand under the name before are merged with, or replaced, in the same way. -/
theorem pieces_make_whole_mixed :
    let before : List Step :=
      [ .call (.field "price" [.is (.object [("low", .null)]),
          .matchingWith (.string "cheap") (.object [("slop", .bool true)])]),
        .call (.group .must [.call (.field "price" [.lt (.integer 9)])]) ]
    let pieces : List (List FieldStep) :=
      [ [.gte (.integer 1), .is (.string "a")], [],
        [.matchAny [.object []], .lt (.integer 7), .gte (.deferred (.array [])), .note],
        [.matching .plain (.string "rust"), .attempt (.is .null), .matchAll []] ]
    let after : List Step :=
      [ .call (.field "title" [.is .null]), .call (.field "price" [.is .null, .should]),
        .call (.field "price" [.lt (.array [])]) ]
    let split := before ++ pieces.map (fun piece => .call (.field "price" piece)) ++ after
    let whole := before ++ [.call (.field "price" pieces.flatten)] ++ after
    (∀ piece ∈ pieces, ∀ step ∈ piece, step.joins) ∧
    ∃ d other, buildGroup split = .ok d ∧ buildGroup whole = .ok other ∧ d.Reordered other ∧
      keys d.entries = ["bool", "term", "match", "range", "terms"] ∧
      keys other.entries = ["bool", "term", "match", "terms", "range"] := by
  intro before pieces after split whole
  have hjoins : ∀ piece ∈ pieces, ∀ step ∈ piece, step.joins := by decide
  have hsplit : buildGroup split = .ok (Step.runAll split .group).state.document := rfl
  have hwhole : buildGroup whole = .ok (Step.runAll whole .group).state.document := rfl
  obtain ⟨other, hother, hreordered⟩ := (pieces_make_whole "price" before after hjoins).2 _ hsplit
  obtain rfl := Except.ok.inj (hwhole.symm.trans hother)
  exact ⟨hjoins, _, _, hsplit, hother, hreordered, by decide +kernel, by decide +kernel⟩

end

end SearchQuery
