import SearchQuery.Proofs.Groups
import SearchQuery.Proofs.Routing

/-!
# Implicit groups made explicit

A procedure on a root says the same as one in which every bare clause and every field stands in a
group of its own. The groups of the fields come last, because a root places its fields at the end.
-/

namespace SearchQuery

open Entries

/-! ## The explicit procedure -/

/-- A bare clause in a `must` group of its own. All other calls stay. -/
def Call.explicit : Call → Call
  | .queryString text options => .group .must [.call (.queryString text options)]
  | .multiMatch text fields options => .group .must [.call (.multiMatch text fields options)]
  | call => call

def Step.explicit : Step → Step
  | .call inner => .call inner.explicit
  | .filter body => .filter body
  | .attempt step => .attempt step.explicit

/-- A field without its routing steps, in the group that it was routed to last. -/
def explicitField (declaration : String × List FieldStep) : Step :=
  let steps := FieldStep.taken declaration.2
  let occur := (steps.filterMap FieldStep.occur?).getLast?.getD .must
  .call (.group occur [.call (.field declaration.1 (steps.filter (fun step => step.occur?.isNone)))])

def explicit (procedure : List Step) : List Step :=
  (procedure.filter (fun step => step.declaration?.isNone)).map Step.explicit ++
    (procedure.filterMap Step.declaration?).map explicitField

def Step.sortCall? : Step → Option (String × Value)
  | .call (.sort field criteria) => (sortCriterion criteria).toOption.map (fun c => (field, c))
  | .call _ => none
  | .filter _ => none
  | .attempt step => step.sortCall?

/-- The criteria of the sort calls in their order. Without any, there is no entry. -/
def sortEntry (procedure : List Step) : Entries Document :=
  match procedure.filterMap Step.sortCall? with
  | [] => []
  | calls => [("sort", (Value.array (calls.map (fun call => .pair call.1 call.2))).resolve)]

/-! ## Steps that declare no field -/

/-- The draft without its fields, and no longer a root. -/
def Draft.bare (draft : Draft) : Draft := { draft with isRoot := false, fields := [] }

def Edit.explicit : Edit → Edit
  | .clause key content => .entry .must (.object [(key, content.resolve)])
  | edit => edit

def Edit.isDeclaration : Edit → Bool
  | .declare _ _ => true
  | _ => false

theorem Edit.apply_explicit {draft : Draft} (hroot : draft.isRoot = true) {edit : Edit}
    (h : edit.isDeclaration = false) :
    edit.explicit.apply draft.bare = (edit.apply draft).bare := by
  cases edit with
  | declare => cases h
  | clause key content =>
    simp only [apply, explicit, Draft.addClause, if_pos hroot]
    rfl
  | aggregations found =>
    have hgate : draft.bare.hasAggregations = draft.hasAggregations := rfl
    simp only [apply, explicit, hgate]
    split <;> rfl
  | entry | filtered | sort => rfl

theorem Edit.apply_bare_of_declaration {edit : Edit} (h : edit.isDeclaration = true)
    (draft : Draft) : (edit.apply draft).bare = draft.bare := by
  cases edit with
  | declare => rfl
  | _ => cases h

theorem Call.edit?_explicit (call : Call) :
    call.explicit.edit? = call.edit?.map Edit.explicit := by
  cases call with
  | queryString text options =>
    rw [explicit, edit?, edit?, buildGroup_call (fun _ => Call.run.eq_1 ..), Option.map_map,
      Option.map_map]
    rfl
  | multiMatch text fields options =>
    rw [explicit, edit?, edit?, buildGroup_call (fun _ => Call.run.eq_2 ..), Option.map_map,
      Option.map_map]
    rfl
  | field | fail | note | probe => rfl
  | group | named | aggregate | sort =>
    simp only [explicit, edit?, Option.map_map]
    rfl

theorem Step.edit?_explicit (step : Step) : step.explicit.edit? = step.edit?.map Edit.explicit := by
  cases step with
  | call inner => exact inner.edit?_explicit
  | filter body =>
    rw [explicit, edit?, Option.map_map]
    rfl
  | attempt inner => exact inner.edit?_explicit

theorem Step.isDeclaration_edit? (step : Step) : ∀ edit ∈ step.edit?,
    edit.isDeclaration = step.declaration?.isSome := by
  cases step with
  | call inner =>
    intro edit hedit
    cases inner with
    | field => obtain rfl := Option.some.inj hedit; rfl
    | fail | note | probe => cases hedit
    | named name arguments steps =>
      obtain ⟨resolved, hresolved, rfl⟩ := mem_toOption_map.1 hedit
      simp [declaration?, hresolved, Except.toOption, Edit.isDeclaration]
    | queryString | multiMatch | group | aggregate | sort =>
      obtain ⟨_, -, rfl⟩ := mem_toOption_map.1 hedit
      rfl
  | filter body =>
    intro edit hedit
    obtain ⟨_, -, rfl⟩ := mem_toOption_map.1 hedit
    rfl
  | attempt inner => exact inner.isDeclaration_edit?

theorem Step.state_explicit {draft : Draft} (hroot : draft.isRoot = true) {step : Step}
    (h : step.declaration? = none) :
    (step.explicit.run draft.bare).state = (step.run draft).state.bare := by
  rw [run_state, run_state, edit?_explicit]
  cases hedit : step.edit? with
  | none => rfl
  | some edit =>
    have hdecl := step.isDeclaration_edit? edit hedit
    rw [h] at hdecl
    exact Edit.apply_explicit hroot hdecl

theorem Outcome.error_ofExcept_map {σ τ α : Type} (checked : Except QueryError α) (state : σ)
    (other : τ) (store : α → σ) (store' : α → τ) :
    (ofExcept state (checked.map store)).error = (ofExcept other (checked.map store')).error := by
  cases checked <;> rfl

theorem Step.runAll_singleton (step : Step) (draft : Draft) :
    (Step.runAll [step] draft).error = (step.run draft).error := by
  rw [Step.runAll]
  unfold Outcome.andThen
  split
  · rfl
  · rename_i h
    rw [h]
    rfl

theorem Call.error_explicit {call : Call} (h : (Step.call call).declaration? = none)
    (draft : Draft) : (call.explicit.run draft.bare).error = (call.run draft).error := by
  cases call with
  | queryString | multiMatch =>
    simp only [explicit, run, Outcome.into_error, Step.runAll_singleton, Step.run]
    exact Outcome.error_ofExcept_map _ _ _ _ _
  | group other body => simp only [explicit, run, Outcome.into_error]
  | field name steps => cases h
  | named name arguments steps =>
    simp only [explicit, run]
    cases hresolved : resolveName name arguments with
    | ok name => simp [Step.declaration?, hresolved, Except.toOption] at h
    | error error => rfl
  | aggregate body =>
    have hgate : draft.bare.hasAggregations = draft.hasAggregations := rfl
    simp only [explicit, run, hgate]
    split
    · rfl
    · simp only [Outcome.into_error]
  | sort key criteria =>
    simp only [explicit, run]
    exact Outcome.error_ofExcept_map _ _ _ _ _
  | fail | note | probe => rfl

theorem Step.error_explicit {draft : Draft} : {step : Step} → step.declaration? = none →
    (step.explicit.run draft.bare).error = (step.run draft).error
  | .call _, h => Call.error_explicit h draft
  | .filter body, _ => by rw [explicit, run, run, Outcome.into_error, Outcome.into_error]
  | .attempt _, _ => rfl

/-- The steps that declare no field do on the bare draft what all steps do on the root. -/
theorem Step.runAll_bare {steps : List Step} {draft : Draft} (hroot : draft.isRoot = true)
    (h : (Step.runAll steps draft).error = none) :
    let others := (steps.filter (fun step => step.declaration?.isNone)).map Step.explicit
    (Step.runAll others draft.bare).error = none ∧
      (Step.runAll others draft.bare).state = (Step.runAll steps draft).state.bare := by
  induction steps generalizing draft with
  | nil => exact ⟨rfl, rfl⟩
  | cons step rest ih =>
    rw [Step.runAll, Outcome.andThen_error_eq_none] at h
    rw [Step.runAll, Outcome.andThen_state h.1]
    have hrest := ih ((step.isRoot_run draft).trans hroot) h.2
    cases hdecl : step.declaration? with
    | none =>
      have herror := (Step.error_explicit hdecl).trans h.1
      rw [List.filter_cons_of_pos (by simp [hdecl]), List.map_cons]
      simp only [Step.runAll]
      refine ⟨(Outcome.andThen_error herror _).trans ?_, (Outcome.andThen_state herror _).trans ?_⟩
      · rw [Step.state_explicit hroot hdecl]
        exact hrest.1
      · rw [Step.state_explicit hroot hdecl]
        exact hrest.2
    | some declaration =>
      have hbare : (step.run draft).state.bare = draft.bare := by
        rw [step.run_state]
        cases hedit : step.edit? with
        | none => rfl
        | some edit =>
          have hd := step.isDeclaration_edit? edit hedit
          rw [hdecl] at hd
          exact Edit.apply_bare_of_declaration hd draft
      rw [List.filter_cons_of_neg (by simp [hdecl]), ← hbare]
      exact hrest

/-! ## The groups of the fields -/

def Draft.declared (declaration : String × List FieldStep) : Field :=
  (FieldStep.runAll declaration.2 (root.newField declaration.1)).state

theorem buildGroup_field {name : String} {steps : List FieldStep}
    (hsteps : ∀ step ∈ steps, step.fails = false) (hoccur : ∀ step ∈ steps, step.occur? = none) :
    buildGroup [.call (.field name steps)] =
      .ok (Value.object (FieldStep.runAll steps { name := name }).state.payload).resolve := by
  have hsound : (FieldStep.runAll steps { name := name }).state.Sound :=
    (Field.sound_new name none).runAll steps
  have hunrouted : (FieldStep.runAll steps { name := name }).state.occur = none := by
    have hnone : steps.filterMap FieldStep.occur? = [] := List.filterMap_eq_nil_iff.2 hoccur
    rw [FieldStep.runAll_unrouted hsteps none, hnone]
    rfl
  have herror : (Step.runAll [.call (.field name steps)] .group).error = none := by
    rw [Step.runAll_singleton]
    exact FieldStep.runAll_error hsteps _
  refine Outcome.result_eq_ok.2 ⟨herror, ?_⟩
  rw [Step.runAll_state herror]
  have hplace : Draft.place [] (FieldStep.runAll steps { name := name }).state =
      (FieldStep.runAll steps { name := name }).state.payload := by
    unfold Draft.place
    rw [hunrouted]
    exact Value.mergeEntries_nil_left hsound.payload.1
  exact congrArg (fun clauses => (Value.object clauses).resolve) hplace

theorem run_explicitField (declaration : String × List FieldStep) (draft : Draft) :
    ((explicitField declaration).run draft).error = none ∧
      ∃ occur, (Draft.declared declaration).occur = some occur ∧
        ((explicitField declaration).run draft).state = draft.addToGroup occur
          (Value.object (Draft.declared declaration).payload).resolve := by
  obtain ⟨name, steps⟩ := declaration
  have htaken := FieldStep.taken_succeed steps
  have hfield : Draft.declared (name, steps) = _ :=
    (FieldStep.runAll_taken steps _).symm.trans (FieldStep.runAll_unrouted htaken none _)
  have hbuild : buildGroup [.call (.field name
      ((FieldStep.taken steps).filter (fun step => step.occur?.isNone)))] =
        .ok (Value.object (Draft.declared (name, steps)).payload).resolve := by
    rw [hfield]
    refine buildGroup_field (fun step hstep => htaken step (List.mem_filter.1 hstep).1) ?_
    intro step hstep
    simpa using (List.mem_filter.1 hstep).2
  have hoccur : (Draft.declared (name, steps)).occur =
      some (((FieldStep.taken steps).filterMap FieldStep.occur?).getLast?.getD .must) := by
    rw [hfield]
    cases ((FieldStep.taken steps).filterMap FieldStep.occur?).getLast? <;> rfl
  refine ⟨?_, _, hoccur, ?_⟩
  · rw [explicitField, Step.run, Call.run, Outcome.into_error]
    exact (Outcome.result_eq_ok.1 hbuild).1
  · rw [Step.run_state, explicitField, Step.edit?, Call.edit?, hbuild]
    rfl

/-- The place of a field whose payload is finished beforehand. -/
def Draft.placeFinished (clauses : Clauses) (field : Field) : Clauses :=
  match field.occur with
  | some occur => clauses.appendToGroup occur (Value.object field.payload).resolve.toValue
  | none => clauses

theorem runAll_explicitField (declarations : List (String × List FieldStep)) (draft : Draft) :
    (Step.runAll (declarations.map explicitField) draft).error = none ∧
      (Step.runAll (declarations.map explicitField) draft).state = { draft with
        clauses := (declarations.map Draft.declared).foldl Draft.placeFinished draft.clauses } := by
  induction declarations generalizing draft with
  | nil => exact ⟨rfl, rfl⟩
  | cons declaration rest ih =>
    obtain ⟨herror, occur, hoccur, hstate⟩ := run_explicitField declaration draft
    have hplace : Draft.placeFinished draft.clauses (Draft.declared declaration) =
        (draft.addToGroup occur
          (Value.object (Draft.declared declaration).payload).resolve).clauses := by
      unfold Draft.placeFinished
      rw [hoccur]
      rfl
    have hrest := ih (draft.addToGroup occur
      (Value.object (Draft.declared declaration).payload).resolve)
    rw [List.map_cons, List.map_cons, List.foldl_cons, hplace]
    simp only [Step.runAll]
    rw [Outcome.andThen_error herror, Outcome.andThen_state herror, hstate]
    exact hrest

/-! ## Placing before and after the resolution -/

def Document.items : Document → List Document
  | .array items => items
  | _ => []

def Document.appendToGroup (occur : Occur) (item : Document) (clauses : Entries Document) :
    Entries Document :=
  update "bool" (fun old => .object (update occur.key
    (fun old => .array (old.elim [] Document.items ++ [item]))
    (old.elim [] Document.entries))) clauses

namespace Draft

variable {allowed : ClauseKind → Prop} {clauses other : Clauses}

theorem ClausesOf.resolve_appendToGroup (h : ClausesOf allowed clauses) (occur : Occur)
    (item : Value) :
    Value.resolveEntries (clauses.appendToGroup occur item) =
      Document.appendToGroup occur item.resolve (Value.resolveEntries clauses) := by
  apply Value.resolveEntries_update
  cases hv : get? "bool" clauses with
  | none => rfl
  | some v =>
    obtain ⟨groups, rfl, -, -, hgroups⟩ := (h.fits ClauseKind.key_injective .bool hv).2
    refine congrArg Document.object (Value.resolveEntries_update ?_)
    change (Value.array ((get? occur.key groups).elim [] Value.items ++ [item])).resolve =
      .array (((get? occur.key groups).map Value.resolve).elim [] Document.items ++ [item.resolve])
    cases hlist : get? occur.key groups with
    | none => rfl
    | some list =>
      obtain ⟨items, hitems, -⟩ := (hgroups _ (mem_of_get? hlist)).2
      obtain rfl : list = .array items := hitems
      simp [Value.items, Document.items, Value.resolve, Value.resolveItems_eq_map]

theorem resolve_foldl_place {fields : List Field} (hfields : ∀ field ∈ fields, field.Sound)
    (hrouted : ∀ field ∈ fields, field.occur ≠ none) (hbool : allowed .bool)
    (h : ClausesOf allowed clauses) (hother : ClausesOf allowed other)
    (hsame : Value.resolveEntries clauses = Value.resolveEntries other) :
    Value.resolveEntries (fields.foldl place clauses) =
      Value.resolveEntries (fields.foldl placeFinished other) := by
  induction fields generalizing clauses other with
  | nil => exact hsame
  | cons field rest ih =>
    rw [List.forall_mem_cons] at hfields hrouted
    obtain ⟨occur, hoccur⟩ := Option.ne_none_iff_exists'.1 hrouted.1
    have hpayload := group_payload hfields.1
    have hfinished : Grammar.Group
        (Value.object field.payload).resolve.toValue.resolve := by
      rwa [Document.resolve_toValue]
    have hplace : place clauses field = clauses.appendToGroup occur (.object field.payload) := by
      unfold place
      rw [hoccur]
    have hplaceFinished : placeFinished other field =
        other.appendToGroup occur (Value.object field.payload).resolve.toValue := by
      unfold placeFinished
      rw [hoccur]
    rw [List.foldl_cons, List.foldl_cons, hplace, hplaceFinished]
    apply ih hfields.2 hrouted.2
    · exact h.appendToGroup hbool occur hpayload
    · exact hother.appendToGroup hbool occur hfinished
    · rw [h.resolve_appendToGroup, hother.resolve_appendToGroup, hsame, Document.resolve_toValue]

end Draft

/-! ## The sort criteria -/

def Edit.sort? : Edit → Option (String × Value)
  | .sort key criterion => some (key, criterion)
  | _ => none

theorem Edit.sort_apply (edit : Edit) (draft : Draft) :
    (edit.apply draft).sort = draft.sort ++ edit.sort?.toList := by
  cases edit with
  | clause key content =>
    simp only [apply, sort?, Draft.addClause]
    split <;> simp [Draft.addToGroup, Draft.store]
  | aggregations found =>
    simp only [apply, sort?]
    split <;> simp [Draft.setAggregations, Draft.store]
  | sort key criterion => rfl
  | entry | filtered | declare =>
    simp [apply, sort?, Draft.addToGroup, Draft.addFiltered, Draft.addField]

theorem Edit.sort_applyAll (edits : List Edit) (draft : Draft) :
    (applyAll edits draft).sort = draft.sort ++ edits.filterMap sort? :=
  list_applyAll Draft.sort (fun _ => sort?) (fun edit _ draft => sort_apply edit draft) draft

theorem Step.sort?_edit? (step : Step) : step.edit?.bind Edit.sort? = step.sortCall? := by
  cases step with
  | call inner =>
    cases inner with
    | field | fail | note | probe => rfl
    | sort key criteria =>
      rw [edit?, Call.edit?, sortCall?]
      cases (sortCriterion criteria).toOption <;> rfl
    | queryString | multiMatch | group | named | aggregate =>
      refine Option.bind_eq_none_iff.2 (fun edit hedit => ?_)
      obtain ⟨_, -, rfl⟩ := mem_toOption_map.1 hedit
      rfl
  | filter body =>
    rw [edit?, sortCall?]
    cases (buildFilter body).toOption <;> rfl
  | attempt inner => exact inner.sort?_edit?

theorem filterMap_sort? (steps : List Step) :
    (steps.filterMap Step.edit?).filterMap Edit.sort? = steps.filterMap Step.sortCall? := by
  rw [List.filterMap_filterMap]
  exact congrArg (List.filterMap · steps) (funext Step.sort?_edit?)

/-! ## The whole procedure -/

theorem Step.runAll_append {first : List Step} {draft : Draft}
    (h : (Step.runAll first draft).error = none) (second : List Step) :
    Outcome.Agrees (Step.runAll (first ++ second) draft)
      (Step.runAll second (Step.runAll first draft).state) := by
  rw [Step.runAll_eq] at h
  rw [Step.runAll_eq, Step.runAll_eq, Step.runAll_eq]
  exact Outcome.runAll_append h second

section

variable {procedure : List Step}

/-- In the group the other steps come first and the fields after them. -/
theorem runAll_explicit (h : (Step.runAll procedure .root).error = none) :
    (Step.runAll (explicit procedure) .group).error = none ∧
      (Step.runAll (explicit procedure) .group).state =
        { (Step.runAll procedure .root).state.bare with
          clauses := ((procedure.filterMap Step.declaration?).map Draft.declared).foldl
            Draft.placeFinished (Step.runAll procedure .root).state.clauses } := by
  obtain ⟨hothers, hbare⟩ := Step.runAll_bare rfl h
  obtain ⟨hdeclared, hplaced⟩ := runAll_explicitField (procedure.filterMap Step.declaration?)
    (Step.runAll procedure .root).state.bare
  have hrun := Step.runAll_append hothers
    ((procedure.filterMap Step.declaration?).map explicitField)
  rw [hbare] at hrun
  exact ⟨hrun.2.trans hdeclared, hrun.1.trans hplaced⟩

theorem resolve_allClauses (h : (Step.runAll procedure .root).error = none) :
    Value.resolveEntries (Step.runAll procedure .root).state.allClauses =
      Value.resolveEntries (((procedure.filterMap Step.declaration?).map Draft.declared).foldl
        Draft.placeFinished (Step.runAll procedure .root).state.clauses) := by
  have hsound := Step.sound_runAll procedure (Draft.sound_new true)
  have hroot : (Step.runAll procedure .root).state.isRoot = true :=
    Step.isRoot_runAll procedure .root
  have hfields : (Step.runAll procedure .root).state.fields =
      (procedure.filterMap Step.declaration?).map Draft.declared := fields_runAll h
  have hstored : Draft.ClausesOf (Draft.Stores true) (Step.runAll procedure .root).state.clauses :=
    hroot ▸ hsound.clauses
  rw [Draft.allClauses, hfields]
  refine Draft.resolve_foldl_place ?_ ?_ trivial hstored hstored rfl
  · exact hfields ▸ hsound.fields
  · exact hfields ▸ hsound.routed hroot

theorem document_runAll (h : (Step.runAll procedure .root).error = none) :
    (Step.runAll procedure .root).state.document = .object
      (("query", (Step.runAll procedure .root).state.clauseDocument) :: sortEntry procedure) := by
  have hroot : (Step.runAll procedure .root).state.isRoot = true :=
    Step.isRoot_runAll procedure .root
  have hsort : (Step.runAll procedure .root).state.sort = procedure.filterMap Step.sortCall? := by
    rw [Step.runAll_state h, Edit.sort_applyAll, filterMap_sort?]
    rfl
  unfold Draft.document sortEntry Draft.sortDocument
  rw [if_pos hroot, ← hsort]
  cases (Step.runAll procedure .root).state.sort <;> rfl

/-- What a procedure builds is what its explicit form builds in a group, under `query`. -/
theorem build_explicit {d : Document} (h : build procedure = .ok d) :
    ∃ clauses, buildGroup (explicit procedure) = .ok clauses ∧
      d = .object (("query", clauses) :: sortEntry procedure) := by
  obtain ⟨herror, hd⟩ := Outcome.result_eq_ok.1 h
  obtain ⟨hexplicit, hstate⟩ := runAll_explicit herror
  refine ⟨(Step.runAll procedure .root).state.clauseDocument, ?_, ?_⟩
  · refine Outcome.result_eq_ok.2 ⟨hexplicit, ?_⟩
    rw [hstate]
    exact congrArg Document.object (resolve_allClauses herror).symm
  · rw [← hd]
    exact document_runAll herror

end

/-- A rerouted field, a bare clause, a failure that is caught, and a sort call. -/
theorem build_explicit_rerouted :
    let procedure : List Step :=
      [ .call (.field "age" [.lt (.string "k"), .mustNot]),
        .call (.queryString "rust" (.object [])),
        .attempt (.call (.group .should [.call (.queryString "rust" (.string "fuzzy"))])),
        .call (.sort "created" (.object [])),
        .call (.group .must [.call (.field "status" [.is (.string "active"), .should])]) ]
    let document : Document := .object
      [ ("query", .object
          [ ("bool", .object
              [ ("must", .array
                  [ .object [("query_string", .object [("query", .string "rust")])],
                    .object [("bool", .object [("should", .array
                      [.object [("term", .object [("status", .string "active")])]])])] ]),
                ("must_not", .array
                  [.object [("range", .object [("age", .object [("lt", .string "k")])])]]) ]) ]),
        ("sort", .array [.object [("created", .object [])]]) ]
    build procedure = .ok document ∧
      ∃ clauses, buildGroup (explicit procedure) = .ok clauses ∧
        document = .object (("query", clauses) :: sortEntry procedure) :=
  ⟨rfl, build_explicit rfl⟩

end SearchQuery
