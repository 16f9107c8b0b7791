import SearchQuery.Proofs.Interleaving
import SearchQuery.Proofs.Operands
import SearchQuery.Proofs.Placement

/-!
# Fields of different names stay apart

All fields without a group share the operators of a draft. Under an operator that holds names, what
stands for one name is merged from the fields of that name alone, in the order of their declarations.
The operators that hold a list join the lists of all fields.
-/

namespace SearchQuery

open Entries

/-! ## Operators that hold names, and those that hold a list -/

theorem Operator.Fits.exists_object {op : Operator} {value : Value} (h : op.Fits value)
    (hop : op.isList = false) : ∃ entries, value = .object entries ∧ Distinct entries := by
  cases op with
  | terms | regex => cases hop
  | term | matching | range =>
    obtain ⟨entries, hvalue, -, hdistinct, -⟩ := h
    exact ⟨entries, hvalue, hdistinct⟩

theorem Operator.Fits.resolve_list {op : Operator} {value : Value} (h : op.Fits value)
    (hop : op.isList = true) :
    some value.resolve = Document.listOf? (value.items.map Value.resolve) := by
  cases op with
  | terms | regex => exact Value.ListOf.resolve_eq h
  | term | matching | range => cases hop

namespace Value

theorem items_mergeAt {incoming : Value} (h : incoming.shape = .array) (old : Option Value) :
    (mergeAt old incoming).items = old.elim [] items ++ incoming.items := by
  cases incoming with
  | array more =>
    cases old with
    | none => rfl
    | some value => cases value <;> rfl
  | _ => cases h

end Value

/-! ## One field -/

namespace Clauses

variable {clauses : Clauses} {field : Field} {op : Operator} {name : String}

theorem get?_place_of_occur (h : field.occur ≠ none) (op : Operator) (clauses : Clauses) :
    get? op.key (Draft.place clauses field) = get? op.key clauses := by
  obtain ⟨occur, hoccur⟩ := Option.ne_none_iff_exists'.1 h
  unfold Draft.place
  rw [hoccur]
  exact get?_update_of_ne (Operator.key_ne_kind .bool nofun op) _ _

theorem get?_place (h : field.occur = none) (hsound : field.Sound) (key : String)
    (clauses : Clauses) :
    get? key (Draft.place clauses field) =
      Value.mergeAt? (get? key clauses) (get? key field.payload) := by
  unfold Draft.place
  rw [h]
  exact Value.get?_mergeEntries hsound.payload.1 key clauses

theorem under?_place (h : field.occur = none) (hsound : field.Sound) (hop : op.isList = false)
    (name : String) (clauses : Clauses) :
    under? op.key name (Draft.place clauses field) =
      Value.mergeAt? (under? op.key name clauses) (under? op.key name field.payload) := by
  unfold under?
  rw [get?_place h hsound]
  cases hv : get? op.key field.payload with
  | none => rfl
  | some value =>
    have hfits : op.Fits value := hsound.payload.fits Operator.key_injective op hv
    obtain ⟨entries, rfl, hdistinct⟩ := hfits.exists_object hop
    exact Value.child?_mergeAt hdistinct (get? op.key clauses) name

theorem under?_payload_of_ne (hnamed : field.Named) (hname : field.name ≠ name) (op : Operator) :
    under? op.key name field.payload = none := by
  unfold under?
  cases hv : get? op.key field.payload with
  | none => rfl
  | some value =>
    rw [Option.bind_some, Value.child?, get?_eq_none_iff]
    exact fun hmem => hname (hnamed.payload _ (mem_of_get? hv) op rfl name hmem).symm

theorem list_place (h : field.occur = none) (hsound : field.Sound) (hop : op.isList = true)
    (clauses : Clauses) :
    list op.key (Draft.place clauses field) = list op.key clauses ++ list op.key field.payload := by
  unfold list
  rw [get?_place h hsound]
  cases hv : get? op.key field.payload with
  | none => exact (List.append_nil _).symm
  | some value =>
    have hfits : op.Fits value := hsound.payload.fits Operator.key_injective op hv
    have hshape : value.shape = .array := by
      cases op with
      | terms | regex =>
        obtain ⟨items, rfl, -⟩ := hfits
        rfl
      | term | matching | range => cases hop
    exact Value.items_mergeAt hshape (get? op.key clauses)

/-! ## All fields -/

/-- What stands for a name is merged from the fields of that name that have no group. -/
theorem under?_foldl_place {fields : List Field} (hsound : ∀ field ∈ fields, field.Sound)
    (hnamed : ∀ field ∈ fields, field.Named) (hop : op.isList = false) (name : String)
    (clauses : Clauses) :
    under? op.key name (fields.foldl Draft.place clauses) =
      ((fields.filter (fun field => field.name = name ∧ field.occur = none)).map
        (fun field => under? op.key name field.payload)).foldl Value.mergeAt?
          (under? op.key name clauses) := by
  induction fields generalizing clauses with
  | nil => rfl
  | cons field rest ih =>
    rw [List.forall_mem_cons] at hsound hnamed
    rw [List.foldl_cons, ih hsound.2 hnamed.2]
    by_cases hoccur : field.occur = none
    · rw [under?_place hoccur hsound.1 hop]
      by_cases hname : field.name = name
      · rw [List.filter_cons_of_pos (by simp [hname, hoccur])]
        rfl
      · rw [List.filter_cons_of_neg (by simp [hname]),
          under?_payload_of_ne hnamed.1 hname]
        rfl
    · rw [List.filter_cons_of_neg (by simp [hoccur]), under?, get?_place_of_occur hoccur]
      rfl

theorem list_foldl_place {fields : List Field} (hsound : ∀ field ∈ fields, field.Sound)
    (hop : op.isList = true) (clauses : Clauses) :
    list op.key (fields.foldl Draft.place clauses) = list op.key clauses ++
      (fields.filter (fun field => field.occur = none)).flatMap
        (fun field => list op.key field.payload) := by
  induction fields generalizing clauses with
  | nil => exact (List.append_nil _).symm
  | cons field rest ih =>
    rw [List.forall_mem_cons] at hsound
    rw [List.foldl_cons, ih hsound.2]
    by_cases hoccur : field.occur = none
    · rw [list_place hoccur hsound.1 hop, List.filter_cons_of_pos (by simp [hoccur]),
        List.flatMap_cons, List.append_assoc]
    · rw [list_congr (get?_place_of_occur hoccur op clauses),
        List.filter_cons_of_neg (by simp [hoccur])]

end Clauses

/-! ## Finished clauses -/

namespace Document

/-- What stands for a name in the clause at a key. -/
def under? (key name : String) (d : Document) : Option Document :=
  (get? key d.entries).bind (fun clause => get? name clause.entries)

def list (key : String) (d : Document) : List Document := (get? key d.entries).elim [] items

end Document

section

variable {clauses : Clauses} {op : Operator}
  (hfits : ∀ value ∈ get? op.key clauses, op.Fits value)

include hfits

theorem under?_resolve (hop : op.isList = false) (name : String) :
    (Value.object clauses).resolve.under? op.key name =
      (clauses.under? op.key name).map Value.resolve := by
  unfold Document.under? Clauses.under?
  rw [Value.resolve, Document.entries, Value.get?_resolveEntries]
  cases hv : get? op.key clauses with
  | none => rfl
  | some value =>
    obtain ⟨entries, rfl, -⟩ := (hfits value hv).exists_object hop
    exact Value.get?_resolveEntries name entries

theorem get?_list_resolve (hop : op.isList = true) :
    get? op.key (Value.object clauses).resolve.entries =
      Document.listOf? ((clauses.list op.key).map Value.resolve) := by
  unfold Clauses.list
  rw [Value.resolve, Document.entries, Value.get?_resolveEntries]
  cases hv : get? op.key clauses with
  | none => rfl
  | some value => exact (hfits value hv).resolve_list hop

theorem list_resolve (hop : op.isList = true) :
    (Value.object clauses).resolve.list op.key = (clauses.list op.key).map Value.resolve := by
  unfold Document.list
  rw [get?_list_resolve hfits hop]
  cases (clauses.list op.key).map Value.resolve <;> rfl

end

/-! ## Programs -/

/-- The step declares a field of this name that ends up without a group. -/
def Step.declaresUnrouted (name : String) (step : Step) : Bool :=
  step.declaration?.any (fun declaration => declaration.1 = name ∧
    (FieldStep.runAll declaration.2
      (Draft.newField { isRoot := false } declaration.1)).state.occur = none)

theorem declaredFields_filter (name : String) (steps : List Step) :
    declaredFields false (steps.filter (Step.declaresUnrouted name)) =
      (declaredFields false steps).filter
        (fun field => field.name = name ∧ field.occur = none) := by
  unfold declaredFields
  rw [List.filter_map, List.filter_filterMap, List.filterMap_filter]
  congr 2
  funext step
  unfold Step.declaresUnrouted
  cases step.declaration? with
  | none => rfl
  | some declaration =>
    have hname : (FieldStep.runAll declaration.2
        (Draft.newField { isRoot := false } declaration.1)).state.name = declaration.1 :=
      Field.name_runAll declaration.1 _ declaration.2
    simp only [Option.any_some, Option.filter_some, Function.comp_apply, hname]

namespace Step

theorem kind_of_declaration? : (step : Step) → step.declaration? ≠ none → step.kind = .declaration
  | .call inner, h => by
    cases inner with
    | field | named => rfl
    | _ => exact absurd rfl h
  | .filter _, h => absurd rfl h
  | .attempt step, h => kind_of_declaration? step h

/-- Declarations succeed without the other steps of their program. -/
theorem runAll_error_of_declarations (keep : Step → Bool)
    (hkeep : ∀ step, keep step → step.kind = .declaration) {steps : List Step}
    {draft : Draft} (other : Draft) (hroot : draft.isRoot = other.isRoot)
    (h : (runAll steps draft).error = none) : (runAll (steps.filter keep) other).error = none := by
  induction steps generalizing draft other with
  | nil => rfl
  | cons step rest ih =>
    rw [runAll, Outcome.andThen_error_eq_none] at h
    have hdraft := step.isRoot_run draft
    cases hstep : keep step with
    | true =>
      have hkind : step.kind = .clause → draft.clauses = other.clauses := by
        rw [hkeep step hstep]
        nofun
      rw [List.filter_cons_of_pos hstep, runAll, Outcome.andThen_error_eq_none,
        ← step.error_congr_of_clauses hroot hkind]
      exact ⟨h.1, ih _ ((hdraft.trans hroot).trans (step.isRoot_run other).symm) h.2⟩
    | false =>
      rw [List.filter_cons_of_neg (by simp [hstep])]
      exact ih other (hdraft.trans hroot) h.2

end Step

section

variable {steps : List Step} {d : Document} {op : Operator}

theorem named_declaredFields (isRoot : Bool) (steps : List Step) :
    ∀ field ∈ declaredFields isRoot steps, field.Named := by
  intro field hfield
  obtain ⟨declaration, -, rfl⟩ := List.mem_map.1 hfield
  exact (Field.named_new _ _).runAll _

theorem allClauses_runAll (h : (Step.runAll steps .group).error = none) :
    (Step.runAll steps .group).state.allClauses = (declaredFields false steps).foldl Draft.place
      (Step.runAll steps .group).state.clauses := by
  rw [Draft.allClauses, ← fields_runAll h]
  rfl

theorem allClauses_eq_foldl (h : buildGroup steps = .ok d) :
    ∃ clauses : Clauses, (∀ op : Operator, get? op.key clauses = none) ∧
      d = (Value.object ((declaredFields false steps).foldl Draft.place clauses)).resolve ∧
      ∀ op : Operator, ∀ value ∈ get? op.key
        ((declaredFields false steps).foldl Draft.place clauses), op.Fits value := by
  have hsound := Step.sound_runAll steps (Draft.sound_new false)
  have hall := allClauses_runAll (Outcome.result_eq_ok.1 h).1
  refine ⟨(Step.runAll steps .group).state.clauses, fun op => ?_, ?_, fun op value hvalue => ?_⟩
  · cases hv : get? op.key (Step.runAll steps .group).state.clauses with
    | none => rfl
    | some value => exact (hsound.clauses.fits ClauseKind.key_injective (.operator op) hv).1.elim
  · rw [← hall]
    exact buildGroup_eq_object h
  · rw [← hall] at hvalue
    exact (hsound.allClauses.fits ClauseKind.key_injective (.operator op) hvalue).2

theorem under?_buildGroup (h : buildGroup steps = .ok d) (hop : op.isList = false)
    (name : String) :
    d.under? op.key name =
      ((((declaredFields false steps).filter
        (fun field => field.name = name ∧ field.occur = none)).map
          (fun field => Clauses.under? op.key name field.payload)).foldl Value.mergeAt? none).map
            Value.resolve := by
  obtain ⟨clauses, hnone, rfl, hfits⟩ := allClauses_eq_foldl h
  have hstart : Clauses.under? op.key name clauses = none := by
    rw [Clauses.under?, hnone, Option.bind_none]
  rw [under?_resolve (hfits op) hop, Clauses.under?_foldl_place
    (sound_declaredFields false steps) (named_declaredFields false steps) hop, hstart]

theorem get?_list_buildGroup (h : buildGroup steps = .ok d) (hop : op.isList = true) :
    get? op.key d.entries = Document.listOf?
      (((declaredFields false steps).filter (fun field => field.occur = none)).flatMap
        (fun field => (Value.object field.payload).resolve.list op.key)) := by
  obtain ⟨clauses, hnone, rfl, hfits⟩ := allClauses_eq_foldl h
  have hsound := sound_declaredFields false steps
  have hstart : Clauses.list op.key clauses = [] := by
    rw [Clauses.list, hnone]
    rfl
  rw [get?_list_resolve (hfits op) hop, Clauses.list_foldl_place hsound hop, hstart,
    List.nil_append, List.map_flatMap, List.flatMap_def, List.flatMap_def]
  congr 2
  refine List.map_congr_left (fun field hfield => (list_resolve (fun value hvalue => ?_) hop).symm)
  exact (hsound field (List.mem_filter.1 hfield).1).payload.fits Operator.key_injective op hvalue

/-- What the finished clauses hold for a name under an operator is what the fields of that name that
have no group would make on their own, and nothing if they make nothing. The lists of `terms` and
`regex` are those of all fields without a group, one after the other. -/
theorem names_stay_apart (h : buildGroup steps = .ok d) :
    (∀ name, ∃ alone, buildGroup (steps.filter (Step.declaresUnrouted name)) = .ok alone ∧
      ∀ op : Operator, op.isList = false → d.under? op.key name = alone.under? op.key name) ∧
    ∀ op : Operator, op.isList = true →
      get? op.key d.entries = Document.listOf?
        (((declaredFields false steps).filter (fun field => field.occur = none)).flatMap
          (fun field => (Value.object field.payload).resolve.list op.key)) := by
  refine ⟨fun name => ?_, fun op hop => get?_list_buildGroup h hop⟩
  have herror := Step.runAll_error_of_declarations (Step.declaresUnrouted name)
    (fun step hstep => ?_) .group rfl (Outcome.result_eq_ok.1 h).1
  · have hbuild : buildGroup (steps.filter (Step.declaresUnrouted name)) =
        .ok (Step.runAll (steps.filter (Step.declaresUnrouted name)) .group).state.document :=
      Outcome.result_eq_ok.2 ⟨herror, rfl⟩
    refine ⟨_, hbuild, fun op hop => ?_⟩
    rw [under?_buildGroup h hop, under?_buildGroup hbuild hop, declaredFields_filter,
      List.filter_filter]
    simp only [Bool.and_self]
  · refine step.kind_of_declaration? (fun hnone => ?_)
    rw [Step.declaresUnrouted, hnone] at hstep
    cases hstep

/-- Neither the group nor the field with a group of its own has a part in what stands for `title`. -/
theorem names_stay_apart_mixed :
    let title : Step := .call (.field "title" [.matching .plain (.string "rust"), .regex "r"])
    let body : Step := .call (.named "body" []
      [.matching .plain (.string "go"), .gt (.integer 1), .matchAny [.null]])
    let routed : Step := .call (.field "title" [.is .null, .should])
    let more : Step := .attempt (.call (.field "title"
      [.matchingWith .null (.object [("slop", .bool true)]), .regex "s", .matchAny [],
        .matchingWith .null (.bool true)]))
    let steps := [title, .call (.group .must [title]), body, routed, .filter [.call .probe], more]
    let alone : Document := .object
      [ ("match", .object [("title", .object [("query", .null), ("slop", .bool true)])]),
        ("regex", .array
          [.object [("title", .string "r")], .object [("title", .string "s")]]),
        ("terms", .array
          [.object [("title", .array []), ("minimum_should_match", .number (.ofUInt64 1))]]) ]
    ∃ d, buildGroup steps = .ok d ∧
      buildGroup (steps.filter (Step.declaresUnrouted "title")) = .ok alone ∧
      d.under? "match" "title" = alone.under? "match" "title" ∧
      d.under? "term" "title" = none ∧
      get? "terms" d.entries = some (.array
        [ .object [("body", .array [.null]), ("minimum_should_match", .number (.ofUInt64 1))],
          .object [("title", .array []), ("minimum_should_match", .number (.ofUInt64 1))] ]) := by
  intro title body routed more steps alone
  have hbuild : buildGroup steps = .ok (Step.runAll steps .group).state.document := rfl
  have halone : buildGroup (steps.filter (Step.declaresUnrouted "title")) = .ok alone := rfl
  obtain ⟨hnames, hlists⟩ := names_stay_apart hbuild
  obtain ⟨other, hother, hsame⟩ := hnames "title"
  obtain rfl := Except.ok.inj (halone.symm.trans hother)
  exact ⟨_, hbuild, halone, hsame (.matching .plain) rfl, hsame .term rfl, hlists .terms rfl⟩

end

end SearchQuery
