import SearchQuery.Proofs.Interleaving
import SearchQuery.Proofs.Placement

/-!
# Deferred values are transparent

A value of the user travels through fields, groups and merges without being looked at, and when the
document is finished only what it resolves to is left. So whether a value is deferred, as a whole or
in parts, makes no difference. The exception is a group or filter in which two fields of one name
are merged, because there their values meet unresolved.
-/

namespace SearchQuery

open Entries

/-! ## Wrapping values -/

mutual

/-- The second value is the first with deferred wrappers around it or around parts of it, any number
of them on each other. -/
inductive Value.Wraps : Value → Value → Prop where
  | same (value : Value) : Value.Wraps value value
  | wrap {value wrapped : Value} (wraps : Value.Wraps value wrapped) :
      Value.Wraps value (.deferred wrapped)
  | deferred {value wrapped : Value} (wraps : Value.Wraps value wrapped) :
      Value.Wraps (.deferred value) (.deferred wrapped)
  | array {items wrapped : List Value} (wraps : Value.ListWraps items wrapped) :
      Value.Wraps (.array items) (.array wrapped)
  | object {entries wrapped : List (String × Value)} (wraps : Value.EntriesWrap entries wrapped) :
      Value.Wraps (.object entries) (.object wrapped)

inductive Value.ListWraps : List Value → List Value → Prop where
  | nil : Value.ListWraps [] []
  | cons {value wrapped : Value} {rest more : List Value} (head : Value.Wraps value wrapped)
      (tail : Value.ListWraps rest more) : Value.ListWraps (value :: rest) (wrapped :: more)

inductive Value.EntriesWrap : List (String × Value) → List (String × Value) → Prop where
  | nil : Value.EntriesWrap [] []
  | cons (key : String) {value wrapped : Value} {rest more : List (String × Value)}
      (head : Value.Wraps value wrapped) (tail : Value.EntriesWrap rest more) :
      Value.EntriesWrap ((key, value) :: rest) ((key, wrapped) :: more)

end

mutual

theorem Value.Wraps.resolve_eq {value wrapped : Value} :
    value.Wraps wrapped → wrapped.resolve = value.resolve
  | .same _ => rfl
  | .wrap wraps => by rw [Value.resolve, wraps.resolve_eq]
  | .deferred wraps => by rw [Value.resolve, Value.resolve, wraps.resolve_eq]
  | .array wraps => by rw [Value.resolve, Value.resolve, wraps.resolve_eq]
  | .object wraps => by rw [Value.resolve, Value.resolve, wraps.resolve_eq]

theorem Value.ListWraps.resolve_eq {items wrapped : List Value} :
    Value.ListWraps items wrapped → Value.resolveItems wrapped = Value.resolveItems items
  | .nil => rfl
  | .cons head tail => by
    rw [Value.resolveItems, Value.resolveItems, head.resolve_eq, tail.resolve_eq]

theorem Value.EntriesWrap.resolve_eq {entries wrapped : List (String × Value)} :
    Value.EntriesWrap entries wrapped →
      Value.resolveEntries wrapped = Value.resolveEntries entries
  | .nil => rfl
  | .cons key head tail => by
    rw [Value.resolveEntries, Value.resolveEntries, head.resolve_eq, tail.resolve_eq]

end

theorem Value.ListWraps.length_eq {items wrapped : List Value} :
    Value.ListWraps items wrapped → wrapped.length = items.length
  | .nil => rfl
  | .cons _ tail => by rw [List.length_cons, List.length_cons, tail.length_eq]

/-! ## Wrapping the values of a procedure -/

/-- The same step, with values that are wrapped. -/
inductive FieldStep.Wraps : FieldStep → FieldStep → Prop where
  | bound (side : Bound) {value wrapped : Value} (wraps : value.Wraps wrapped) :
      Wraps (.bound side value) (.bound side wrapped)
  | is {value wrapped : Value} (wraps : value.Wraps wrapped) : Wraps (.is value) (.is wrapped)
  | matching (kind : MatchKind) {text wrapped : Value} (wraps : text.Wraps wrapped) :
      Wraps (.matching kind text) (.matching kind wrapped)
  | matchingWith {text wrapped : Value} (wraps : text.Wraps wrapped) (options : Document) :
      Wraps (.matchingWith text options) (.matchingWith wrapped options)
  | matchAll {values wrapped : List Value} (wraps : Value.ListWraps values wrapped) :
      Wraps (.matchAll values) (.matchAll wrapped)
  | matchAny {values wrapped : List Value} (wraps : Value.ListWraps values wrapped) :
      Wraps (.matchAny values) (.matchAny wrapped)
  | matchAtLeast {values wrapped : List Value} (wraps : Value.ListWraps values wrapped)
      (minimum : UInt64) : Wraps (.matchAtLeast values minimum) (.matchAtLeast wrapped minimum)
  | regex (pattern : String) : Wraps (.regex pattern) (.regex pattern)
  | route (occur : Occur) : Wraps (.route occur) (.route occur)
  | note : Wraps .note .note
  | attempt {step wrapped : FieldStep} (wraps : Wraps step wrapped) :
      Wraps (.attempt step) (.attempt wrapped)

inductive FieldStep.ListWraps : List FieldStep → List FieldStep → Prop where
  | nil : ListWraps [] []
  | cons {step wrapped : FieldStep} {rest more : List FieldStep} (head : step.Wraps wrapped)
      (tail : ListWraps rest more) : ListWraps (step :: rest) (wrapped :: more)

mutual

inductive Call.Wraps : Call → Call → Prop where
  | same (call : Call) : Call.Wraps call call
  | group (occur : Occur) {body wrapped : List Step} (wraps : Step.ListWraps body wrapped) :
      Call.Wraps (.group occur body) (.group occur wrapped)
  | field (name : String) {steps wrapped : List FieldStep}
      (wraps : FieldStep.ListWraps steps wrapped) :
      Call.Wraps (.field name steps) (.field name wrapped)
  | named (name : String) (arguments : List Document) {steps wrapped : List FieldStep}
      (wraps : FieldStep.ListWraps steps wrapped) :
      Call.Wraps (.named name arguments steps) (.named name arguments wrapped)

inductive Step.Wraps : Step → Step → Prop where
  | call {inner wrapped : Call} (wraps : Call.Wraps inner wrapped) :
      Step.Wraps (.call inner) (.call wrapped)
  | filter {body wrapped : List FilterStep} (wraps : FilterStep.ListWraps body wrapped) :
      Step.Wraps (.filter body) (.filter wrapped)
  | attempt {step wrapped : Step} (wraps : Step.Wraps step wrapped) :
      Step.Wraps (.attempt step) (.attempt wrapped)

inductive FilterStep.Wraps : FilterStep → FilterStep → Prop where
  | call {inner wrapped : Call} (wraps : Call.Wraps inner wrapped) :
      FilterStep.Wraps (.call inner) (.call wrapped)
  | filter {body wrapped : List FilterStep} (wraps : FilterStep.ListWraps body wrapped) :
      FilterStep.Wraps (.filter body) (.filter wrapped)
  | draftFilter {body wrapped : List FilterStep} (wraps : FilterStep.ListWraps body wrapped) :
      FilterStep.Wraps (.draftFilter body) (.draftFilter wrapped)
  | query {body wrapped : List Step} (wraps : Step.ListWraps body wrapped) :
      FilterStep.Wraps (.query body) (.query wrapped)
  | attempt {step wrapped : FilterStep} (wraps : FilterStep.Wraps step wrapped) :
      FilterStep.Wraps (.attempt step) (.attempt wrapped)

/-- The same steps, at any depth with values that are wrapped. -/
inductive Step.ListWraps : List Step → List Step → Prop where
  | nil : Step.ListWraps [] []
  | cons {step wrapped : Step} {rest more : List Step} (head : Step.Wraps step wrapped)
      (tail : Step.ListWraps rest more) : Step.ListWraps (step :: rest) (wrapped :: more)

inductive FilterStep.ListWraps : List FilterStep → List FilterStep → Prop where
  | nil : FilterStep.ListWraps [] []
  | cons {step wrapped : FilterStep} {rest more : List FilterStep}
      (head : FilterStep.Wraps step wrapped) (tail : FilterStep.ListWraps rest more) :
      FilterStep.ListWraps (step :: rest) (wrapped :: more)

end

/-! ## Procedures in which no two fields meet -/

mutual

/-- In no group, filter or query that the call opens are there two fields that meet. Only what is
run counts. -/
def Call.KeepsApart : Call → Prop
  | .group _ body => Step.RunsApart body .group
  | _ => True

def Step.KeepsApart : Step → Prop
  | .call inner => inner.KeepsApart
  | .filter body => FilterStep.RunsApart body {}
  | .attempt step => step.KeepsApart

def FilterStep.KeepsApart : FilterStep → Prop
  | .call inner => inner.KeepsApart
  | .filter _ => True
  | .draftFilter body => FilterStep.RunsApart body {}
  | .query body => Step.RunsApart body .root
  | .attempt step => step.KeepsApart

/-- Fields meet neither in what the steps open nor, after the last of them, in the draft itself. -/
def Step.RunsApart : List Step → Draft → Prop
  | [], draft => draft.Apart
  | step :: rest, draft =>
    step.KeepsApart ∧
      ((step.run draft).error = none → Step.RunsApart rest (step.run draft).state)

def FilterStep.RunsApart : List FilterStep → Filter → Prop
  | [], filter => filter.draft.Apart
  | step :: rest, filter =>
    step.KeepsApart ∧
      ((step.run filter).error = none → FilterStep.RunsApart rest (step.run filter).state)

end

theorem Step.apart_runAll {draft : Draft} : {steps : List Step} → Step.RunsApart steps draft →
    (Step.runAll steps draft).error = none → (Step.runAll steps draft).state.Apart
  | [], h, _ => h
  | step :: rest, h, herror => by
    rw [RunsApart] at h
    rw [runAll, Outcome.andThen_error_eq_none] at herror
    rw [runAll, Outcome.andThen_state herror.1]
    exact apart_runAll (h.2 herror.1) herror.2

theorem FilterStep.apart_runAll {filter : Filter} : {steps : List FilterStep} →
    FilterStep.RunsApart steps filter → (FilterStep.runAll steps filter).error = none →
      (FilterStep.runAll steps filter).state.draft.Apart
  | [], h, _ => h
  | step :: rest, h, herror => by
    rw [RunsApart] at h
    rw [runAll, Outcome.andThen_error_eq_none] at herror
    rw [runAll, Outcome.andThen_state herror.1]
    exact apart_runAll (h.2 herror.1) herror.2

/-! ## Fields -/

namespace FinishedField

def setBound (bound : Bound) (value : Document) (field : FinishedField) : FinishedField :=
  { field with bounds := insert bound.key value field.bounds }

def setOperator (key : String) (operand : Document) (field : FinishedField) : FinishedField :=
  { field with
    operators := update key
      (fun old => .object (insert field.name operand (old.elim [] Document.entries)))
      field.operators }

def addEntry (key : String) (entry : Document) (field : FinishedField) : FinishedField :=
  { field with
    operators := update key (fun old => .array (old.elim [] Document.items ++ [entry]))
      field.operators }

end FinishedField

theorem Value.ObjectOf.exists_object {P : String → Value → Prop} {value : Value}
    (h : value.ObjectOf P) : ∃ entries, value = .object entries := h.imp (fun _ hes => hes.1)

theorem Value.ListOf.exists_array {P : Value → Prop} {value : Value} (h : value.ListOf P) :
    ∃ items, value = .array items := h.imp (fun _ his => his.1)

namespace Field

variable {field : Field}

theorem finish_setBound (bound : Bound) (value : Value) (field : Field) :
    (field.setBound bound value).finish = field.finish.setBound bound value.resolve :=
  congrArg (fun bounds => { field.finish with bounds := bounds })
    (Value.resolveEntries_insert bound.key value field.bounds)

/-- The operators that hold operands are never anything but objects. -/
theorem Sound.finish_setOperator (h : field.Sound) (op : Operator)
    (hobject : ∀ v, op.Fits v → ∃ entries, v = .object entries) (operand : Value) :
    (field.setOperator op.key operand).finish =
      field.finish.setOperator op.key operand.resolve := by
  refine congrArg (fun operators => { field.finish with operators := operators })
    (Value.resolveEntries_update ?_)
  cases hv : get? op.key field.operators with
  | none => rfl
  | some v =>
    obtain ⟨operands, rfl⟩ := hobject v (h.operators.fits Operator.key_injective op hv)
    exact congrArg Document.object (Value.resolveEntries_insert field.name operand operands)

theorem Sound.finish_addEntry (h : field.Sound) (op : Operator)
    (harray : ∀ v, op.Fits v → ∃ items, v = .array items) (entry : Value) :
    (field.addEntry op.key entry).finish = field.finish.addEntry op.key entry.resolve := by
  refine congrArg (fun operators => { field.finish with operators := operators })
    (Value.resolveEntries_update ?_)
  cases hv : get? op.key field.operators with
  | none => rfl
  | some v =>
    obtain ⟨items, rfl⟩ := harray v (h.operators.fits Operator.key_injective op hv)
    simp [Value.items, Document.items, Value.resolve, Value.resolveItems_eq_map]

theorem Sound.finish_setTerm (h : field.Sound) (value : Value) :
    (field.setTerm value).finish = field.finish.setOperator "term" value.resolve :=
  h.finish_setOperator .term (fun _ => Value.ObjectOf.exists_object (P := fun _ _ => True)) value

theorem Sound.finish_setOperator_match (h : field.Sound) (kind : MatchKind) (operand : Value) :
    (field.setOperator kind.key operand).finish =
      field.finish.setOperator kind.key operand.resolve :=
  h.finish_setOperator (.matching kind)
    (fun _ => Value.ObjectOf.exists_object (P := fun _ options => options.HasKey "query")) operand

theorem Sound.finish_addTerms (h : field.Sound) (values : List Value) (minimum : UInt64) :
    (field.addTerms values minimum).finish = field.finish.addEntry "terms"
      (.object (insert "minimum_should_match" (Value.ofUInt64 minimum).resolve
        [(field.name, .array (Value.resolveItems values))])) := by
  have hentry := h.finish_addEntry .terms
    (fun _ => Value.ListOf.exists_array (P := Value.HasKey "minimum_should_match"))
    (.object (insert "minimum_should_match" (.ofUInt64 minimum) [(field.name, .array values)]))
  rwa [Value.resolve, Value.resolveEntries_insert, Value.resolveEntries, Value.resolve,
    Value.resolveEntries] at hentry

theorem Sound.finish_addRegex (h : field.Sound) (pattern : String) :
    (field.addRegex pattern).finish =
      field.finish.addEntry "regex" (.object [(field.name, .string pattern)]) :=
  h.finish_addEntry .regex (fun _ => Value.ListOf.exists_array
    (P := fun entry => ∃ name pattern, entry = .pair name (.string pattern))) _

end Field

/-! ## Selecting a kind of match -/

/-- The selector options decide, and they are taken out. The others may be what they want. -/
theorem MatchKind.select_congr {options other : Entries Value}
    (hphrase : get? "phrase" options = get? "phrase" other)
    (hprefixed : get? "prefix" options = get? "prefix" other)
    (hresolve : Value.resolveEntries options = Value.resolveEntries other) :
    (select options).1 = (select other).1 ∧
      Value.resolveEntries (select options).2 = Value.resolveEntries (select other).2 := by
  have hrest : get? "prefix" (erase "phrase" options) = get? "prefix" (erase "phrase" other) := by
    rw [get?_erase_of_ne (by decide), get?_erase_of_ne (by decide), hprefixed]
  unfold select
  simp only [hphrase, hrest]
  split
  · simp [Value.resolveEntries_erase, hresolve]
  · split <;> simp [Value.resolveEntries_erase, hresolve]

/-! ## Wrapped steps on a field -/

/-- The two fields have been made by steps, and they differ at most before they are resolved. -/
structure Field.Like (field other : Field) : Prop where
  sound : field.Sound
  sound' : other.Sound
  finish : field.finish = other.finish

theorem Field.Like.name_eq {field other : Field} (h : field.Like other) : field.name = other.name :=
  congrArg FinishedField.name h.finish

namespace FieldStep.Wraps

variable {step wrapped : FieldStep} {field other : Field}

theorem error_eq : step.Wraps wrapped → (step.run field).error = (wrapped.run other).error
  | .matchingWith _ options => by
    rw [run, run]
    cases hoptions : readOptions "match" options with
    | error error =>
      rw [Field.setMatchWith_of_error hoptions, Field.setMatchWith_of_error hoptions]
      rfl
    | ok read =>
      rw [Field.setMatchWith_of_ok hoptions, Field.setMatchWith_of_ok hoptions]
      rfl
  | .bound .. | .is _ | .matching .. | .matchAll _ | .matchAny _ | .matchAtLeast .. | .regex _
  | .route _ | .note | .attempt _ => rfl

theorem finish_matchingWith (h : field.Like other) {text wrapped : Value}
    (wraps : text.Wraps wrapped) (options : Document) :
    ((FieldStep.matchingWith text options).run field).state.finish =
      ((FieldStep.matchingWith wrapped options).run other).state.finish := by
  rw [run, run]
  cases hoptions : readOptions "match" options with
  | error error =>
    rw [Field.setMatchWith_of_error hoptions, Field.setMatchWith_of_error hoptions]
    exact h.finish
  | ok read =>
    have hframe : ∀ key, key ≠ "query" →
        get? key (insert "query" text read) = get? key (insert "query" wrapped read) := by
      intro key hkey
      unfold Entries.insert
      rw [get?_update_of_ne hkey, get?_update_of_ne hkey]
    have hresolve : Value.resolveEntries (insert "query" text read) =
        Value.resolveEntries (insert "query" wrapped read) := by
      rw [Value.resolveEntries_insert, Value.resolveEntries_insert, wraps.resolve_eq]
    obtain ⟨hkind, hrest⟩ := MatchKind.select_congr (hframe "phrase" (by decide))
      (hframe "prefix" (by decide)) hresolve
    rw [Field.setMatchWith_of_ok hoptions, Field.setMatchWith_of_ok hoptions]
    change (field.setOperator _ _).finish = (other.setOperator _ _).finish
    rw [h.sound.finish_setOperator_match, h.sound'.finish_setOperator_match, h.finish, hkind,
      Value.resolve, Value.resolve, hrest]

theorem finish_eq (h : field.Like other) (wraps : step.Wraps wrapped) :
    (step.run field).state.finish = (wrapped.run other).state.finish := by
  induction wraps with
  | bound side wraps =>
    simp only [run, Outcome.done, Field.finish_setBound, h.finish, wraps.resolve_eq]
  | is wraps =>
    simp only [run, Outcome.done, h.sound.finish_setTerm, h.sound'.finish_setTerm, h.finish,
      wraps.resolve_eq]
  | matching kind wraps =>
    simp only [run, Outcome.done, Field.setMatch, h.sound.finish_setOperator_match,
      h.sound'.finish_setOperator_match, h.finish, Value.pair, Value.resolve, Value.resolveEntries,
      wraps.resolve_eq]
  | matchingWith wraps options => exact finish_matchingWith h wraps options
  | matchAll wraps | matchAny wraps | matchAtLeast wraps =>
    simp only [run, Outcome.done, h.sound.finish_addTerms, h.sound'.finish_addTerms, h.finish,
      h.name_eq, wraps.resolve_eq, wraps.length_eq]
  | regex pattern =>
    simp only [run, Outcome.done, h.sound.finish_addRegex, h.sound'.finish_addRegex, h.finish,
      h.name_eq]
  | route occur =>
    exact congrArg (fun field : FinishedField => { field with occur := some occur }) h.finish
  | note => exact h.finish
  | attempt _ ih => exact ih

theorem related (h : field.Like other) (wraps : step.Wraps wrapped) :
    Outcome.Related Field.Like (step.run field) (wrapped.run other) where
  left := ⟨h.sound.run step, h.sound'.run wrapped, wraps.finish_eq h⟩
  right := wraps.error_eq

end FieldStep.Wraps

theorem FieldStep.ListWraps.related {field other : Field} (h : field.Like other)
    {steps wrapped : List FieldStep} : FieldStep.ListWraps steps wrapped →
    Outcome.Related Field.Like (FieldStep.runAll steps field) (FieldStep.runAll wrapped other)
  | .nil => ⟨h, rfl⟩
  | .cons head tail => by
    have hhead := head.related h
    exact hhead.andThen (fun _ => tail.related hhead.1)

/-! ## Wrapped steps on a draft or filter -/

/-- The two drafts differ at most in fields, and these only before they are resolved. -/
structure Draft.Like (draft other : Draft) : Prop where
  isRoot : draft.isRoot = other.isRoot
  clauses : draft.clauses = other.clauses
  fields : draft.fields.map Field.finish = other.fields.map Field.finish
  sort : draft.sort = other.sort

namespace Draft.Like

variable {draft other : Draft}

theorem refl (draft : Draft) : draft.Like draft := ⟨rfl, rfl, rfl, rfl⟩

theorem newField_eq (h : draft.Like other) (name : String) :
    draft.newField name = other.newField name := by
  unfold Draft.newField
  rw [h.isRoot]

theorem addField (h : draft.Like other) {field field' : Field}
    (hfinish : field.finish = field'.finish) :
    (draft.addField field).Like (other.addField field') := by
  refine ⟨h.isRoot, h.clauses, ?_, h.sort⟩
  simp [Draft.addField, h.fields, hfinish]

theorem with_clauses (h : draft.Like other) (f : Clauses → Clauses) :
    Draft.Like { draft with clauses := f draft.clauses }
      { other with clauses := f other.clauses } :=
  ⟨h.isRoot, congrArg f h.clauses, h.fields, h.sort⟩

theorem addToGroup (h : draft.Like other) (occur : Occur) {entry entry' : Document}
    (hentry : entry = entry') :
    (draft.addToGroup occur entry).Like (other.addToGroup occur entry') :=
  hentry ▸ h.with_clauses (·.appendToGroup occur entry.toValue)

theorem addFiltered (h : draft.Like other) {entry entry' : Document} (hentry : entry = entry') :
    (draft.addFiltered entry).Like (other.addFiltered entry') :=
  hentry ▸ h.with_clauses (·.append "filtered" entry.toValue)

theorem apply (h : draft.Like other) (edit : Edit) :
    (edit.apply draft).Like (edit.apply other) := by
  cases edit with
  | declare name steps => exact h.addField (by rw [h.newField_eq])
  | clause key content =>
    simp only [Edit.apply, Draft.addClause, h.isRoot]
    split
    · exact h.addToGroup .must rfl
    · exact h.with_clauses (insert key content)
  | aggregations found =>
    simp only [Edit.apply, Draft.hasAggregations_congr h.clauses]
    split
    · exact h
    · exact h.with_clauses (insert "aggs" _)
  | entry occur item => exact h.addToGroup occur rfl
  | filtered item => exact h.addFiltered rfl
  | sort key criterion =>
    exact ⟨h.isRoot, h.clauses, h.fields, congrArg (· ++ [(key, criterion)]) h.sort⟩

theorem run (h : draft.Like other) (call : Call) :
    Outcome.Related Draft.Like (call.run draft) (call.run other) where
  left := by
    rw [call.run_state, call.run_state]
    cases call.edit? with
    | none => exact h
    | some edit => exact h.apply edit
  right := Call.error_congr h.isRoot (fun _ => h.clauses)

theorem declare (h : draft.Like other) (name : String) {steps wrapped : List FieldStep}
    (wraps : FieldStep.ListWraps steps wrapped) :
    Outcome.Related Draft.Like (draft.declare name steps) (other.declare name wrapped) := by
  have hnew : (other.newField name).Sound := Field.sound_new name _
  rw [Draft.declare, Draft.declare, h.newField_eq]
  have hsteps := wraps.related ⟨hnew, hnew, rfl⟩
  exact ⟨h.addField hsteps.1.finish, hsteps.2⟩

theorem apart (h : draft.Like other) (hapart : draft.Apart) : other.Apart := by
  intro hroot
  have hfinished : (draft.fields.map Field.finish).Pairwise FinishedField.Apart :=
    List.pairwise_map.2 (hapart (h.isRoot.trans hroot))
  rw [h.fields] at hfinished
  exact List.Pairwise.of_map Field.finish (fun _ _ => id) hfinished

theorem clauseDocument_eq (h : draft.Like other) (hdraft : draft.Sound ∧ draft.Named)
    (hother : other.Sound ∧ other.Named) (hapart : draft.Apart) :
    draft.clauseDocument = other.clauseDocument := by
  have hclauses := hdraft.1.resolve_allClauses hdraft.2 hapart
  rw [h.fields, h.clauses, ← hother.1.resolve_allClauses hother.2 (h.apart hapart)] at hclauses
  exact congrArg Document.object hclauses

theorem document_eq (h : draft.Like other) (hdraft : draft.Sound ∧ draft.Named)
    (hother : other.Sound ∧ other.Named) (hapart : draft.Apart) :
    draft.document = other.document := by
  unfold Draft.document Draft.sortDocument
  rw [h.isRoot, h.sort, h.clauseDocument_eq hdraft hother hapart]

end Draft.Like

/-- What a run that succeeds leaves of a new draft. -/
theorem Step.made_runAll {steps : List Step} {isRoot : Bool}
    (h : (Step.runAll steps { isRoot := isRoot }).error = none) :
    (Step.runAll steps { isRoot := isRoot }).state.Sound ∧
      (Step.runAll steps { isRoot := isRoot }).state.Named := by
  rw [Step.runAll_state h]
  exact ⟨(Draft.sound_new isRoot).applyAll (Step.sound_edits steps), Draft.named_applyAll _ isRoot⟩

theorem FilterStep.made_runAll {steps : List FilterStep}
    (h : (FilterStep.runAll steps {}).error = none) :
    (FilterStep.runAll steps {}).state.draft.Sound ∧
      (FilterStep.runAll steps {}).state.draft.Named := by
  rw [FilterStep.runAll_state h]
  exact ⟨(Draft.sound_new false).applyAll (FilterStep.sound_edits steps).1,
    Draft.named_applyAll _ false⟩

structure Filter.Like (filter other : Filter) : Prop where
  draft : filter.draft.Like other.draft
  query : filter.query = other.query

theorem Draft.document_runAll_eq {isRoot : Bool} {steps wrapped : List Step}
    (h : Outcome.Related Draft.Like (Step.runAll steps { isRoot := isRoot })
      (Step.runAll wrapped { isRoot := isRoot }))
    (hapart : Step.RunsApart steps { isRoot := isRoot })
    (herror : (Step.runAll steps { isRoot := isRoot }).error = none) :
    (Step.runAll steps { isRoot := isRoot }).state.document =
      (Step.runAll wrapped { isRoot := isRoot }).state.document :=
  h.1.document_eq (Step.made_runAll herror) (Step.made_runAll (h.2.symm.trans herror))
    (Step.apart_runAll hapart herror)

theorem Filter.document_runAll_eq {steps wrapped : List FilterStep}
    (h : Outcome.Related Filter.Like (FilterStep.runAll steps {}) (FilterStep.runAll wrapped {}))
    (hapart : FilterStep.RunsApart steps {})
    (herror : (FilterStep.runAll steps {}).error = none) :
    (FilterStep.runAll steps {}).state.document =
      (FilterStep.runAll wrapped {}).state.document := by
  unfold Filter.document
  rw [h.1.query, h.1.draft.clauseDocument_eq (FilterStep.made_runAll herror)
    (FilterStep.made_runAll (h.2.symm.trans herror)) (FilterStep.apart_runAll hapart herror)]

-- The induction is on how the values are wrapped, body by body.
mutual

theorem Call.Wraps.related {call wrapped : Call} {draft other : Draft} (h : draft.Like other) :
    call.Wraps wrapped → call.KeepsApart →
      Outcome.Related Draft.Like (call.run draft) (wrapped.run other)
  | .same call, _ => h.run call
  | .group occur wraps, hapart => by
    rw [Call.KeepsApart] at hapart
    have hbody := wraps.related (.refl .group) hapart
    rw [Call.run, Call.run]
    exact .into hbody.2 h (fun herror =>
      h.addToGroup occur (Draft.document_runAll_eq hbody hapart herror))
  | .field name wraps, _ => by
    rw [Call.run, Call.run]
    exact h.declare name wraps
  | .named name arguments wraps, _ => by
    rw [Call.run, Call.run]
    split
    · exact h.declare _ wraps
    · exact ⟨h, rfl⟩

theorem Step.Wraps.related {step wrapped : Step} {draft other : Draft} (h : draft.Like other) :
    step.Wraps wrapped → step.KeepsApart →
      Outcome.Related Draft.Like (step.run draft) (wrapped.run other)
  | .call wraps, hapart => by
    rw [Step.KeepsApart] at hapart
    rw [Step.run, Step.run]
    exact wraps.related h hapart
  | .filter wraps, hapart => by
    rw [Step.KeepsApart] at hapart
    have hbody := wraps.related ⟨.refl .group, rfl⟩ hapart
    rw [Step.run, Step.run]
    exact .into hbody.2 h (fun herror =>
      h.addFiltered (Filter.document_runAll_eq hbody hapart herror))
  | .attempt wraps, hapart => by
    rw [Step.KeepsApart] at hapart
    rw [Step.run, Step.run]
    exact (wraps.related h hapart).caught

theorem FilterStep.Wraps.related {step wrapped : FilterStep} {filter other : Filter}
    (h : filter.Like other) : step.Wraps wrapped → step.KeepsApart →
      Outcome.Related Filter.Like (step.run filter) (wrapped.run other)
  | .call wraps, hapart => by
    rw [FilterStep.KeepsApart] at hapart
    have hcall := wraps.related h.draft hapart
    rw [FilterStep.run, FilterStep.run]
    exact ⟨⟨hcall.1, h.query⟩, hcall.2⟩
  | .filter _, _ => ⟨h, rfl⟩
  | .draftFilter wraps, hapart => by
    rw [FilterStep.KeepsApart] at hapart
    have hbody := wraps.related ⟨.refl .group, rfl⟩ hapart
    rw [FilterStep.run, FilterStep.run]
    exact .into hbody.2 h (fun herror =>
      ⟨h.draft.addFiltered (Filter.document_runAll_eq hbody hapart herror), h.query⟩)
  | .query wraps, hapart => by
    rw [FilterStep.KeepsApart] at hapart
    have hbody := wraps.related (.refl .root) hapart
    rw [FilterStep.run, FilterStep.run]
    exact .into hbody.2 h (fun herror =>
      ⟨h.draft, congrArg some (Draft.document_runAll_eq hbody hapart herror)⟩)
  | .attempt wraps, hapart => by
    rw [FilterStep.KeepsApart] at hapart
    rw [FilterStep.run, FilterStep.run]
    exact (wraps.related h hapart).caught

theorem Step.ListWraps.related {steps wrapped : List Step} {draft other : Draft}
    (h : draft.Like other) : Step.ListWraps steps wrapped → Step.RunsApart steps draft →
      Outcome.Related Draft.Like (Step.runAll steps draft) (Step.runAll wrapped other)
  | .nil, _ => ⟨h, rfl⟩
  | .cons head tail, hapart => by
    rw [Step.RunsApart] at hapart
    have hhead := head.related h hapart.1
    rw [Step.runAll, Step.runAll]
    exact hhead.andThen (fun herror => tail.related hhead.1 (hapart.2 herror))

theorem FilterStep.ListWraps.related {steps wrapped : List FilterStep} {filter other : Filter}
    (h : filter.Like other) : FilterStep.ListWraps steps wrapped →
      FilterStep.RunsApart steps filter →
      Outcome.Related Filter.Like (FilterStep.runAll steps filter)
        (FilterStep.runAll wrapped other)
  | .nil, _ => ⟨h, rfl⟩
  | .cons head tail, hapart => by
    rw [FilterStep.RunsApart] at hapart
    have hhead := head.related h hapart.1
    rw [FilterStep.runAll, FilterStep.runAll]
    exact hhead.andThen (fun herror => tail.related hhead.1 (hapart.2 herror))

end

/-- Wrapping values, or parts of them, changes nothing in what is built, unless two fields of one
name meet outside a root. -/
theorem deferred_is_transparent :
    (∀ (isRoot : Bool) (steps wrapped : List Step), Step.ListWraps steps wrapped →
      Step.RunsApart steps { isRoot := isRoot } →
      (Step.runAll wrapped { isRoot := isRoot }).result Draft.document =
        (Step.runAll steps { isRoot := isRoot }).result Draft.document) ∧
    (∀ steps wrapped : List FilterStep, FilterStep.ListWraps steps wrapped →
      FilterStep.RunsApart steps {} →
      (FilterStep.runAll wrapped {}).result Filter.document =
        (FilterStep.runAll steps {}).result Filter.document) := by
  constructor
  · intro isRoot steps wrapped wraps hapart
    have hrun := wraps.related (.refl _) hapart
    exact (Outcome.result_congr hrun.2 (Draft.document_runAll_eq hrun hapart)).symm
  · intro steps wrapped wraps hapart
    have hrun := wraps.related ⟨.refl .group, rfl⟩ hapart
    exact (Outcome.result_congr hrun.2 (Filter.document_runAll_eq hrun hapart)).symm

/-- Two layers around a bound, one of several values, and a part of an operand. Two of the three
fields of the group share an operator. -/
theorem deferred_is_transparent_shared_operator :
    let age (bound : Value) : Call := .field "age" [.gt bound]
    let group (bound value active : Value) : List Step :=
      [ .call (age bound),
        .call (.field "height" [.lt (.string "k"), .matchAny [.string "tall", value]]),
        .attempt (.call (.field "status" [.is active, .should])) ]
    let bound : Value := .string "a"
    let wrappedBound : Value := .deferred (.deferred bound)
    let steps := group bound (.string "big") (.pair "kind" (.string "active"))
    let wrapped := group wrappedBound (.deferred (.string "big"))
      (.pair "kind" (.deferred (.string "active")))
    let clauses : Document := .object
      [ ("range", .object
          [ ("age", .object [("gt", .string "a")]), ("height", .object [("lt", .string "k")]) ]),
        ("terms", .array [.object
          [ ("height", .array [.string "tall", .string "big"]),
            ("minimum_should_match", .number (.ofInt64 1)) ]]),
        ("bool", .object [("should", .array [.object
          [("term", .object [("status", .object [("kind", .string "active")])])]])]) ]
    (Step.ListWraps steps wrapped ∧ Step.RunsApart steps .group ∧
      buildGroup wrapped = .ok clauses) ∧
      FilterStep.RunsApart [.call (age bound)] {} ∧
      buildFilter [.call (age wrappedBound)] = buildFilter [.call (age bound)] := by
  intro age group bound wrappedBound steps wrapped clauses
  have hage : (age bound).Wraps (age wrappedBound) :=
    .field "age" (.cons (.bound .gt (.wrap (.wrap (.same bound)))) .nil)
  have hwraps : Step.ListWraps steps wrapped := by
    refine .cons (.call hage) (.cons (.call (.field "height" ?_)) (.cons ?_ .nil))
    · refine .cons (.bound .lt (.same _)) (.cons (.matchAny ?_) .nil)
      exact .cons (.same _) (.cons (.wrap (.same _)) .nil)
    · refine .attempt (.call (.field "status" (.cons (.is ?_) (.cons (.route .should) .nil))))
      exact .object (.cons "kind" (.wrap (.same _)) .nil)
  have hnames : (Step.runAll steps .group).state.Apart := by decide
  have hapart : Step.RunsApart steps .group :=
    ⟨trivial, fun _ => ⟨trivial, fun _ => ⟨trivial, fun _ => hnames⟩⟩⟩
  have hfilter : FilterStep.RunsApart [.call (age bound)] {} :=
    ⟨trivial, fun _ _ => .cons nofun .nil⟩
  have hbuild : buildGroup steps = .ok clauses := rfl
  have hsame : buildGroup wrapped = buildGroup steps :=
    deferred_is_transparent.1 false steps wrapped hwraps hapart
  exact ⟨⟨hwraps, hapart, hsame.trans hbuild⟩, hfilter,
    deferred_is_transparent.2 _ _ (.cons (.call hage) .nil) hfilter⟩

/-- Where two fields of one name are merged, the values do meet. -/
example :
    let steps (second : Value) : List Step :=
      [.call (.field "a" [.is (.pair "b" .null)]), .call (.field "a" [.is second])]
    buildGroup (steps (.pair "c" .null)) =
        .ok (.object [("term", .object [("a", .object [("b", .null), ("c", .null)])])]) ∧
      buildGroup (steps (.deferred (.pair "c" .null))) =
        .ok (.object [("term", .object [("a", .object [("c", .null)])])]) := ⟨rfl, rfl⟩

end SearchQuery
