import SearchQuery.Proofs.Sound

/-!
# The entries of groups and filters

Which entries the finished lists hold, and in which order. A list of a group gets entries while the
steps are taken and again when the fields are placed. Nothing else reaches it.
-/

namespace SearchQuery

open Entries

/-! ## Lists of clauses -/

namespace Clauses

def list (key : String) (clauses : Clauses) : List Value := (get? key clauses).elim [] Value.items

def group (occur : Occur) (clauses : Clauses) : List Value :=
  list occur.key ((get? "bool" clauses).elim [] Value.entries)

theorem list_append_self (key : String) (item : Value) (clauses : Clauses) :
    list key (append key item clauses) = list key clauses ++ [item] := by
  unfold list append
  rw [get?_update_self]
  rfl

theorem list_congr {key : String} {first second : Clauses} (h : get? key first = get? key second) :
    list key first = list key second := by
  unfold list
  rw [h]

theorem group_congr {first second : Clauses} (h : get? "bool" first = get? "bool" second)
    (occur : Occur) : group occur first = group occur second := by
  unfold group
  rw [h]

theorem group_appendToGroup (occur other : Occur) (item : Value) (clauses : Clauses) :
    group occur (clauses.appendToGroup other item) =
      group occur clauses ++ if other = occur then [item] else [] := by
  unfold group appendToGroup
  rw [get?_update_self]
  simp only [Option.elim_some, Value.entries]
  split
  · rename_i h
    rw [h, list_append_self]
  · rename_i h
    rw [List.append_nil]
    exact list_congr (get?_update_of_ne (fun hkey => h (Occur.key_injective hkey).symm) _ _)

end Clauses

/-! ## What an edit adds -/

namespace Edit

/-- The entry that an edit adds to a group. In a root a bare clause is a `must` entry. -/
def item? (isRoot : Bool) (occur : Occur) : Edit → Option Document
  | .entry other item => if other = occur then some item else none
  | .clause key content =>
    if isRoot ∧ occur = .must then some (.object [(key, content.resolve)]) else none
  | _ => none

def filtered? : Edit → Option Document
  | .filtered item => some item
  | _ => none

def field? (isRoot : Bool) : Edit → Option Field
  | .declare name steps =>
    some (FieldStep.runAll steps (Draft.newField { isRoot := isRoot } name)).state
  | _ => none

def key? (isRoot : Bool) : Edit → Option String
  | .clause key _ => some (if isRoot then "bool" else key)
  | .entry _ _ => some "bool"
  | .filtered _ => some "filtered"
  | .aggregations _ => some "aggs"
  | .declare _ _ => none
  | .sort _ _ => none

theorem get?_apply_of_ne {edit : Edit} {draft : Draft} {key : String}
    (h : edit.key? draft.isRoot ≠ some key) :
    get? key (edit.apply draft).clauses = get? key draft.clauses := by
  cases edit with
  | clause own content =>
    simp only [key?, ne_eq, Option.some.injEq] at h
    simp only [apply, Draft.addClause]
    split
    · rename_i hroot
      rw [if_pos hroot] at h
      exact get?_update_of_ne (Ne.symm h) _ _
    · rename_i hroot
      rw [if_neg hroot] at h
      exact get?_update_of_ne (Ne.symm h) _ _
  | entry | filtered =>
    simp only [key?, ne_eq, Option.some.injEq] at h
    exact get?_update_of_ne (Ne.symm h) _ _
  | aggregations found =>
    simp only [key?, ne_eq, Option.some.injEq] at h
    simp only [apply]
    split
    · rfl
    · exact get?_update_of_ne (Ne.symm h) _ _
  | declare | sort => rfl

open Clauses

theorem group_apply {edit : Edit} (hedit : edit.Sound) (occur : Occur) (draft : Draft) :
    group occur (edit.apply draft).clauses =
      group occur draft.clauses ++
        ((edit.item? draft.isRoot occur).map Document.toValue).toList := by
  have hframe : edit.key? draft.isRoot ≠ some "bool" →
      group occur (edit.apply draft).clauses = group occur draft.clauses ++ [] := by
    intro h
    rw [List.append_nil]
    exact group_congr (get?_apply_of_ne h) occur
  cases edit with
  | clause key content =>
    obtain ⟨kind, hkind, rfl, -⟩ := hedit
    cases hroot : draft.isRoot with
    | true =>
      simp only [apply, Draft.addClause, hroot, if_true, Draft.addToGroup, group_appendToGroup]
      cases occur <;> rfl
    | false =>
      rw [hroot] at hframe
      refine (hframe ?_).trans (by simp [item?])
      rcases hkind with rfl | rfl <;> simp [key?, ClauseKind.key]
  | entry other item =>
    simp only [apply, item?, Draft.addToGroup, group_appendToGroup]
    split <;> rfl
  | declare | filtered | aggregations | sort => exact hframe (by simp [key?])

theorem filtered_apply {edit : Edit} (hedit : edit.Sound) (draft : Draft) :
    list "filtered" (edit.apply draft).clauses =
      list "filtered" draft.clauses ++ (edit.filtered?.map Document.toValue).toList := by
  have hframe : edit.key? draft.isRoot ≠ some "filtered" →
      list "filtered" (edit.apply draft).clauses = list "filtered" draft.clauses ++ [] := by
    intro h
    rw [List.append_nil]
    exact list_congr (get?_apply_of_ne h)
  cases edit with
  | clause key content =>
    obtain ⟨kind, hkind, rfl, -⟩ := hedit
    refine hframe ?_
    unfold key?
    rcases hkind with rfl | rfl <;> cases draft.isRoot <;> simp [ClauseKind.key]
  | filtered item => exact list_append_self "filtered" item.toValue draft.clauses
  | entry | declare | aggregations | sort => exact hframe (by simp [key?])

theorem fields_apply (edit : Edit) (draft : Draft) :
    (edit.apply draft).fields = draft.fields ++ (edit.field? draft.isRoot).toList := by
  cases edit with
  | clause key content =>
    simp only [apply, field?, Draft.addClause]
    split <;> simp [Draft.addToGroup, Draft.store]
  | aggregations found =>
    simp only [apply, field?]
    split <;> simp [Draft.setAggregations, Draft.store]
  | declare name steps => rfl
  | entry | filtered | sort =>
    simp [apply, field?, Draft.addToGroup, Draft.addFiltered, Draft.addSort]

/-- A list that every edit only adds to holds after a run what the edits have added. -/
theorem list_applyAll {α : Type} (view : Draft → List α) (add : Bool → Edit → Option α)
    {edits : List Edit} (h : ∀ edit ∈ edits, ∀ draft,
      view (edit.apply draft) = view draft ++ (add draft.isRoot edit).toList) (draft : Draft) :
    view (applyAll edits draft) = view draft ++ edits.filterMap (add draft.isRoot) := by
  induction edits generalizing draft with
  | nil => simp
  | cons edit rest ih =>
    rw [List.forall_mem_cons] at h
    rw [applyAll_cons, ih h.2, h.1, isRoot_apply, List.append_assoc, Outcome.filterMap_cons_toList]

theorem group_applyAll {edits : List Edit} (hedits : ∀ edit ∈ edits, edit.Sound) (occur : Occur)
    (draft : Draft) :
    group occur (applyAll edits draft).clauses =
      group occur draft.clauses ++
        (edits.filterMap (item? draft.isRoot occur)).map Document.toValue := by
  rw [List.map_filterMap]
  exact list_applyAll (fun draft => group occur draft.clauses)
    (fun isRoot edit => (item? isRoot occur edit).map Document.toValue)
    (fun edit hedit draft => group_apply (hedits edit hedit) occur draft) draft

theorem filtered_applyAll {edits : List Edit} (hedits : ∀ edit ∈ edits, edit.Sound)
    (draft : Draft) :
    list "filtered" (applyAll edits draft).clauses =
      list "filtered" draft.clauses ++ (edits.filterMap filtered?).map Document.toValue := by
  rw [List.map_filterMap]
  exact list_applyAll (fun draft => list "filtered" draft.clauses)
    (fun _ edit => edit.filtered?.map Document.toValue)
    (fun edit hedit draft => filtered_apply (hedits edit hedit) draft) draft

theorem fields_applyAll (edits : List Edit) (draft : Draft) :
    (applyAll edits draft).fields = draft.fields ++ edits.filterMap (field? draft.isRoot) :=
  list_applyAll Draft.fields field? (fun edit _ draft => fields_apply edit draft) draft

end Edit

/-! ## What the fields add -/

theorem Field.not_mem_keys_payload {field : Field} (h : field.Sound) {key : String}
    (hkey : ∀ op : Operator, op.key ≠ key) : key ∉ keys field.payload := by
  intro hmem
  obtain ⟨e, he, rfl⟩ := List.mem_map.1 hmem
  obtain ⟨op, hop, -⟩ := h.payload.2 e he
  exact hkey op hop.symm

theorem Operator.key_ne_kind (kind : ClauseKind) (h : ∀ op, kind ≠ .operator op) (op : Operator) :
    op.key ≠ kind.key := fun hkey => h op (ClauseKind.key_injective (b := .operator op) hkey.symm)

namespace Clauses

theorem group_place {field : Field} (hfield : field.Sound) (occur : Occur) (clauses : Clauses) :
    group occur (Draft.place clauses field) =
      group occur clauses ++ if field.occur = some occur then [.object field.payload] else [] := by
  have hbool : "bool" ∉ keys field.payload :=
    Field.not_mem_keys_payload hfield (Operator.key_ne_kind .bool nofun)
  unfold Draft.place
  cases hoccur : field.occur with
  | none =>
    rw [if_neg nofun, List.append_nil]
    exact group_congr (Value.get?_mergeEntries_of_not_mem hbool _) occur
  | some other =>
    rw [group_appendToGroup]
    simp only [Option.some.injEq]

/-- Fields reach nothing but groups and operators. -/
theorem get?_place_of_ne {field : Field} (hfield : field.Sound) {key : String} (hbool : key ≠ "bool")
    (hop : ∀ op : Operator, op.key ≠ key) (clauses : Clauses) :
    get? key (Draft.place clauses field) = get? key clauses := by
  unfold Draft.place
  split
  · exact get?_update_of_ne hbool _ _
  · exact Value.get?_mergeEntries_of_not_mem (Field.not_mem_keys_payload hfield hop) _

theorem get?_foldl_place_of_ne {fields : List Field} (hfields : ∀ field ∈ fields, field.Sound)
    {key : String} (hbool : key ≠ "bool") (hop : ∀ op : Operator, op.key ≠ key)
    (clauses : Clauses) : get? key (fields.foldl Draft.place clauses) = get? key clauses := by
  induction fields generalizing clauses with
  | nil => rfl
  | cons field rest ih =>
    rw [List.forall_mem_cons] at hfields
    rw [List.foldl_cons, ih hfields.2, get?_place_of_ne hfields.1 hbool hop]

theorem group_foldl_place {fields : List Field} (hfields : ∀ field ∈ fields, field.Sound)
    (occur : Occur) (clauses : Clauses) :
    group occur (fields.foldl Draft.place clauses) =
      group occur clauses ++
        (fields.filter (fun field => field.occur = some occur)).map
          (fun field => .object field.payload) := by
  induction fields generalizing clauses with
  | nil => simp
  | cons field rest ih =>
    rw [List.forall_mem_cons] at hfields
    rw [List.foldl_cons, ih hfields.2, group_place hfields.1, List.append_assoc, List.filter_cons]
    by_cases h : field.occur = some occur <;> simp [h]

theorem filtered_foldl_place {fields : List Field} (hfields : ∀ field ∈ fields, field.Sound)
    (clauses : Clauses) :
    list "filtered" (fields.foldl Draft.place clauses) = list "filtered" clauses := by
  have hop : ∀ op : Operator, op.key ≠ "filtered" := Operator.key_ne_kind .filtered nofun
  exact list_congr (get?_foldl_place_of_ne hfields (by decide) hop clauses)

end Clauses

/-! ## The finished lists -/

/-- A list clause. Where it would be empty, there is no clause. -/
def Document.listOf? : List Document → Option Document
  | [] => none
  | items => some (.array items)

theorem Document.listOf?_of_ne_nil {items : List Document} (h : items ≠ []) :
    listOf? items = some (.array items) := by
  cases items with
  | nil => exact absurd rfl h
  | cons item rest => rfl

theorem Value.ListOf.resolve_eq {P : Value → Prop} {value : Value} (h : value.ListOf P) :
    some value.resolve = Document.listOf? (value.items.map Value.resolve) := by
  obtain ⟨items, rfl, hne, -⟩ := h
  rw [Document.listOf?_of_ne_nil (by simpa [Value.items] using hne), Value.resolve,
    Value.resolveItems_eq_map]
  rfl

namespace Draft

variable {allowed : ClauseKind → Prop} {clauses : Clauses}

theorem ClausesOf.get?_filtered (h : ClausesOf allowed clauses) :
    get? "filtered" (Value.resolveEntries clauses) =
      Document.listOf? ((Clauses.list "filtered" clauses).map Value.resolve) := by
  rw [Value.get?_resolveEntries]
  unfold Clauses.list
  cases hv : get? "filtered" clauses with
  | none => rfl
  | some v =>
    have hfits := h.fits ClauseKind.key_injective .filtered hv
    exact Value.ListOf.resolve_eq hfits.2

theorem ClausesOf.get?_group (h : ClausesOf allowed clauses) (occur : Occur) :
    (get? "bool" (Value.resolveEntries clauses)).bind (fun d => get? occur.key d.entries) =
      Document.listOf? ((Clauses.group occur clauses).map Value.resolve) := by
  rw [Value.get?_resolveEntries]
  unfold Clauses.group Clauses.list
  cases hv : get? "bool" clauses with
  | none => rfl
  | some v =>
    obtain ⟨groups, rfl, -, -, hgroups⟩ := (h.fits ClauseKind.key_injective .bool hv).2
    simp only [Option.map_some, Option.bind_some, Option.elim_some, Value.resolve, Document.entries,
      Value.entries, Value.get?_resolveEntries]
    cases hlist : get? occur.key groups with
    | none => rfl
    | some list => exact (hgroups _ (mem_of_get? hlist)).2.resolve_eq

theorem ClausesOf.get?_bool_eq_none (h : ClausesOf allowed clauses) :
    get? "bool" (Value.resolveEntries clauses) = none ↔
      ∀ occur, Clauses.group occur clauses = [] := by
  rw [Value.get?_resolveEntries, Option.map_eq_none_iff]
  unfold Clauses.group Clauses.list
  constructor
  · intro hnone occur
    rw [hnone]
    rfl
  · intro hempty
    cases hv : get? "bool" clauses with
    | none => rfl
    | some v =>
      exfalso
      obtain ⟨groups, rfl, hne, hdistinct, hgroups⟩ :=
        (h.fits ClauseKind.key_injective .bool hv).2
      obtain ⟨⟨key, list⟩, hmem⟩ := List.exists_mem_of_ne_nil groups hne
      obtain ⟨⟨occur, hkey⟩, items, hitems, hitemsNe, -⟩ := hgroups _ hmem
      simp only at hkey hitems
      have hget : get? occur.key groups = some list := hkey ▸ get?_of_mem hdistinct hmem
      have := hempty occur
      rw [hv] at this
      simp only [Option.elim_some, Value.entries, hget, hitems, Value.items] at this
      exact hitemsNe this

end Draft

/-! ## Programs -/

/-- The body of the group that a step opens. In a root a bare clause opens a `must` group of its
own. -/
def Step.groupBody? (isRoot : Bool) (occur : Occur) : Step → Option (List Step)
  | .call (.group other body) => if other = occur then some body else none
  | .call (.queryString text options) =>
    if isRoot ∧ occur = .must then some [.call (.queryString text options)] else none
  | .call (.multiMatch text fields options) =>
    if isRoot ∧ occur = .must then some [.call (.multiMatch text fields options)] else none
  | .call _ => none
  | .filter _ => none
  | .attempt step => step.groupBody? isRoot occur

def Step.filterBody? : Step → Option (List FilterStep)
  | .call _ => none
  | .filter body => some body
  | .attempt step => step.filterBody?

def Step.declaration? : Step → Option (String × List FieldStep)
  | .call (.field name steps) => some (name, steps)
  | .call (.named name arguments steps) =>
    (resolveName name arguments).toOption.map (fun name => (name, steps))
  | .call _ => none
  | .filter _ => none
  | .attempt step => step.declaration?

def declaredFields (isRoot : Bool) (steps : List Step) : List Field :=
  (steps.filterMap Step.declaration?).map (fun declaration =>
    (FieldStep.runAll declaration.2 (Draft.newField { isRoot := isRoot } declaration.1)).state)

theorem declaredFields_append (isRoot : Bool) (first second : List Step) :
    declaredFields isRoot (first ++ second) =
      declaredFields isRoot first ++ declaredFields isRoot second := by
  simp [declaredFields]

/-- The documents of the bodies, those left out that fail and are caught. -/
def groupEntries (isRoot : Bool) (occur : Occur) (steps : List Step) : List Document :=
  (steps.filterMap (Step.groupBody? isRoot occur)).filterMap
    (fun body => (buildGroup body).toOption)

def fieldEntries (isRoot : Bool) (occur : Occur) (steps : List Step) : List Document :=
  ((declaredFields isRoot steps).filter (fun field => field.occur = some occur)).map
    (fun field => (Value.object field.payload).resolve)

def filterEntries (steps : List Step) : List Document :=
  (steps.filterMap Step.filterBody?).filterMap (fun body => (buildFilter body).toOption)

theorem buildGroup_call {call : Call} {key : String} {checked : Except QueryError Value}
    (h : ∀ draft, call.run draft = .ofExcept draft (checked.map (draft.addClause key ·))) :
    (buildGroup [.call call]).toOption =
      checked.toOption.map (fun content => .object [(key, content.resolve)]) := by
  unfold buildGroup
  rw [Step.runAll, Step.run, h]
  cases checked <;> rfl

theorem Call.item?_edit? (isRoot : Bool) (occur : Occur) (call : Call) :
    call.edit?.bind (Edit.item? isRoot occur) =
      ((Step.call call).groupBody? isRoot occur).bind (fun body => (buildGroup body).toOption) := by
  cases call with
  | group other body =>
    simp only [Call.edit?, Step.groupBody?]
    by_cases h : other = occur <;> cases hd : (buildGroup body).toOption <;>
      simp [h, hd, Edit.item?]
  | queryString text options =>
    simp only [Call.edit?, Step.groupBody?]
    by_cases h : isRoot ∧ occur = .must
    · rw [if_pos h, Option.bind_some, buildGroup_call (fun _ => Call.run.eq_1 ..)]
      cases (SearchQuery.queryString text options).toOption <;> simp [h, Edit.item?]
    · cases (SearchQuery.queryString text options).toOption <;> simp [h, Edit.item?]
  | multiMatch text fields options =>
    simp only [Call.edit?, Step.groupBody?]
    by_cases h : isRoot ∧ occur = .must
    · rw [if_pos h, Option.bind_some, buildGroup_call (fun _ => Call.run.eq_2 ..)]
      cases (SearchQuery.multiMatch text fields options).toOption <;> simp [h, Edit.item?]
    · cases (SearchQuery.multiMatch text fields options).toOption <;> simp [h, Edit.item?]
  | named | aggregate | sort =>
    refine Option.bind_eq_none_iff.2 (fun edit hedit => ?_)
    obtain ⟨_, -, rfl⟩ := mem_toOption_map.1 hedit
    rfl
  | field | fail | note | probe => rfl

theorem Step.item?_edit? (isRoot : Bool) (occur : Occur) (step : Step) :
    step.edit?.bind (Edit.item? isRoot occur) =
      (step.groupBody? isRoot occur).bind (fun body => (buildGroup body).toOption) := by
  cases step with
  | call inner => exact inner.item?_edit? isRoot occur
  | filter body =>
    rw [Step.edit?, Step.groupBody?]
    cases (buildFilter body).toOption <;> rfl
  | attempt inner => exact inner.item?_edit? isRoot occur

theorem Call.filtered?_edit? (call : Call) : call.edit?.bind Edit.filtered? = none := by
  rw [Option.bind_eq_none_iff]
  intro edit hedit
  cases call with
  | field => obtain rfl := Option.some.inj hedit; rfl
  | fail | note | probe => cases hedit
  | _ =>
    obtain ⟨_, -, rfl⟩ := mem_toOption_map.1 hedit
    rfl

theorem Step.filtered?_edit? (step : Step) :
    step.edit?.bind Edit.filtered? =
      step.filterBody?.bind (fun body => (buildFilter body).toOption) := by
  cases step with
  | call inner => exact inner.filtered?_edit?
  | filter body =>
    rw [Step.edit?, Step.filterBody?]
    cases hd : (buildFilter body).toOption <;> simp [hd, Edit.filtered?]
  | attempt inner => exact inner.filtered?_edit?

theorem Step.field?_edit? (isRoot : Bool) (step : Step) :
    step.edit?.bind (Edit.field? isRoot) = step.declaration?.map (fun declaration =>
      (FieldStep.runAll declaration.2 (Draft.newField { isRoot := isRoot } declaration.1)).state)
    := by
  cases step with
  | call inner =>
    cases inner with
    | field | fail | note | probe => rfl
    | named name arguments steps =>
      rw [Step.edit?, Call.edit?, Step.declaration?]
      cases (resolveName name arguments).toOption <;> rfl
    | queryString | multiMatch | group | aggregate | sort =>
      refine Option.bind_eq_none_iff.2 (fun edit hedit => ?_)
      obtain ⟨_, -, rfl⟩ := mem_toOption_map.1 hedit
      rfl
  | filter body =>
    rw [Step.edit?, Step.declaration?]
    cases (buildFilter body).toOption <;> rfl
  | attempt inner => exact inner.field?_edit? isRoot

section

variable (isRoot : Bool) (steps : List Step)

theorem filterMap_item? (occur : Occur) :
    (steps.filterMap Step.edit?).filterMap (Edit.item? isRoot occur) =
      groupEntries isRoot occur steps := by
  unfold groupEntries
  rw [List.filterMap_filterMap, List.filterMap_filterMap]
  exact congrArg (List.filterMap · steps) (funext (Step.item?_edit? isRoot occur))

theorem filterMap_filtered? :
    (steps.filterMap Step.edit?).filterMap Edit.filtered? = filterEntries steps := by
  unfold filterEntries
  rw [List.filterMap_filterMap, List.filterMap_filterMap]
  exact congrArg (List.filterMap · steps) (funext Step.filtered?_edit?)

theorem filterMap_field? :
    (steps.filterMap Step.edit?).filterMap (Edit.field? isRoot) = declaredFields isRoot steps := by
  unfold declaredFields
  rw [List.filterMap_filterMap, List.map_filterMap]
  exact congrArg (List.filterMap · steps) (funext (Step.field?_edit? isRoot))

end

/-! ## The finished draft -/

theorem sound_declaredFields (isRoot : Bool) (steps : List Step) :
    ∀ field ∈ declaredFields isRoot steps, field.Sound := by
  intro field hfield
  obtain ⟨declaration, -, rfl⟩ := List.mem_map.1 hfield
  exact (Field.sound_new _ _).runAll _

theorem map_resolve_toValue (items : List Document) :
    (items.map Document.toValue).map Value.resolve = items := by
  rw [List.map_map]
  exact (List.map_congr_left (fun d _ => d.resolve_toValue)).trans (List.map_id items)

section

variable {isRoot : Bool} {steps : List Step}

theorem fields_runAll (h : (Step.runAll steps { isRoot := isRoot }).error = none) :
    (Step.runAll steps { isRoot := isRoot }).state.fields = declaredFields isRoot steps := by
  rw [Step.runAll_state h, Edit.fields_applyAll, filterMap_field?, List.nil_append]

theorem group_allClauses (h : (Step.runAll steps { isRoot := isRoot }).error = none)
    (occur : Occur) :
    (Clauses.group occur (Step.runAll steps { isRoot := isRoot }).state.allClauses).map
        Value.resolve = groupEntries isRoot occur steps ++ fieldEntries isRoot occur steps := by
  have hedits := Step.sound_edits steps
  rw [Draft.allClauses, fields_runAll h,
    Clauses.group_foldl_place (sound_declaredFields isRoot steps), Step.runAll_state h,
    Edit.group_applyAll hedits, filterMap_item?, List.map_append, List.map_append,
    map_resolve_toValue]
  unfold fieldEntries
  rw [List.map_map]
  rfl

theorem filtered_allClauses (h : (Step.runAll steps { isRoot := isRoot }).error = none) :
    (Clauses.list "filtered" (Step.runAll steps { isRoot := isRoot }).state.allClauses).map
        Value.resolve = filterEntries steps := by
  have hedits := Step.sound_edits steps
  rw [Draft.allClauses, fields_runAll h,
    Clauses.filtered_foldl_place (sound_declaredFields isRoot steps), Step.runAll_state h,
    Edit.filtered_applyAll hedits, filterMap_filtered?, List.map_append, map_resolve_toValue]
  rfl

/-- Finished clauses whose `bool` and `filtered` lists are the given ones. A list that would be empty
is not there, and `bool` is not there if all its lists would be empty. -/
structure Document.HasLists (groups : Occur → List Document) (filtered : List Document)
    (finished : Document) : Prop where
  group : ∀ occur, (get? "bool" finished.entries).bind (fun d => get? occur.key d.entries) =
    listOf? (groups occur)
  bool : get? "bool" finished.entries = none ↔ ∀ occur, groups occur = []
  filtered : get? "filtered" finished.entries = listOf? filtered

/-- A run that succeeds leaves each list with the entries of its own steps, then those of its
fields, and with nothing else. -/
theorem finished_lists (h : (Step.runAll steps { isRoot := isRoot }).error = none) :
    (Step.runAll steps { isRoot := isRoot }).state.clauseDocument.HasLists
      (fun occur => groupEntries isRoot occur steps ++ fieldEntries isRoot occur steps)
      (filterEntries steps) := by
  have hclauses := (Step.sound_runAll steps (Draft.sound_new isRoot)).allClauses
  refine ⟨fun occur => ?_, ?_, ?_⟩
  · simp only [← group_allClauses h]
    exact hclauses.get?_group occur
  · simp only [← group_allClauses h, List.map_eq_nil_iff]
    exact hclauses.get?_bool_eq_none
  · rw [← filtered_allClauses h]
    exact hclauses.get?_filtered

/-- The field comes last in `must_not`, and the group that fails leaves no entry. -/
theorem finished_lists_mixed :
    let steps : List Step :=
      [ .call (.field "age" [.lt (.string "k"), .mustNot]),
        .filter [.call (.queryString "nearby" (.object []))],
        .call (.queryString "rust" (.object [])),
        .attempt (.call (.group .should [.call (.queryString "rust" (.string "fuzzy"))])),
        .call (.group .mustNot [.call (.field "status" [.is (.string "active")])]) ]
    (Step.runAll steps { isRoot := true }).error = none ∧
      groupEntries true .must steps ++ fieldEntries true .must steps =
        [.object [("query_string", .object [("query", .string "rust")])]] ∧
      groupEntries true .mustNot steps ++ fieldEntries true .mustNot steps =
        [ .object [("term", .object [("status", .string "active")])],
          .object [("range", .object [("age", .object [("lt", .string "k")])])] ] ∧
      groupEntries true .should steps ++ fieldEntries true .should steps = [] ∧
      filterEntries steps =
        [.object [("filter", .object [("query_string", .object [("query", .string "nearby")])])]] ∧
      (Step.runAll steps { isRoot := true }).state.clauseDocument.HasLists
        (fun occur => groupEntries true occur steps ++ fieldEntries true occur steps)
        (filterEntries steps) :=
  ⟨rfl, rfl, rfl, rfl, rfl, finished_lists rfl⟩

end

end SearchQuery
