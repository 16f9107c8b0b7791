import SearchQuery.Field.Step
import SearchQuery.Proofs.Entries
import SearchQuery.Proofs.Outcome

/-!
# Operators: the clauses that fields contribute

Every operator has its shape. All steps on a field keep it, and so does merging the payloads of two
fields, whatever values stand inside: a value of the user is never looked into above its place.
-/

namespace SearchQuery

open Entries

theorem Occur.key_injective {a b : Occur} (h : a.key = b.key) : a = b := by
  cases a <;> cases b <;> simp_all [Occur.key]

inductive Operator where
  | term
  | matching (kind : MatchKind)
  | terms
  | regex
  | range
deriving DecidableEq

def Operator.key : Operator → String
  | .term => "term"
  | .matching kind => kind.key
  | .terms => "terms"
  | .regex => "regex"
  | .range => "range"

/-- The operators that hold a list. The others hold operands under names. -/
def Operator.isList : Operator → Bool
  | .terms | .regex => true
  | .term | .matching _ | .range => false

theorem MatchKind.key_injective {a b : MatchKind} (h : a.key = b.key) : a = b := by
  cases a <;> cases b <;> simp_all [MatchKind.key]

theorem Operator.key_injective {a b : Operator} (h : a.key = b.key) : a = b := by
  cases a with
  | matching kind =>
    cases b with
    | matching other => rw [MatchKind.key_injective h]
    | term | terms | regex | range => cases kind <;> simp_all [Operator.key, MatchKind.key]
  | term | terms | regex | range =>
    cases b with
    | matching kind => cases kind <;> simp_all [Operator.key, MatchKind.key]
    | term | terms | regex | range => simp_all [Operator.key]

/-! ## Shapes of values -/

namespace Value

def HasKey (key : String) (value : Value) : Prop :=
  ∃ entries, value = .object entries ∧ key ∈ keys entries

/-- An object that is not empty, in which no key stands twice and every entry has `P`. -/
def ObjectOf (P : String → Value → Prop) (value : Value) : Prop :=
  ∃ entries, value = .object entries ∧ entries ≠ [] ∧ Distinct entries ∧ ∀ e ∈ entries, P e.1 e.2

def ListOf (P : Value → Prop) (value : Value) : Prop :=
  ∃ items, value = .array items ∧ items ≠ [] ∧ ∀ item ∈ items, P item

theorem ObjectOf.update {P : String → Value → Prop} {key : String} {f : Option Value → Value}
    {old : Option Value} (hold : ∀ v ∈ old, ObjectOf P v) (hnew : P key (f none))
    (hf : ∀ a, P key a → P key (f (some a))) :
    ObjectOf P (.object (Entries.update key f (old.elim [] entries))) := by
  refine ⟨_, rfl, update_ne_nil _ _ _, ?_, ?_⟩
  · apply distinct_update
    cases old with
    | none => exact distinct_nil
    | some v =>
      obtain ⟨es, rfl, -, hdistinct, -⟩ := hold v rfl
      exact hdistinct
  · apply forall_update _ hnew hf
    cases old with
    | none => simp
    | some v =>
      obtain ⟨es, rfl, -, -, hes⟩ := hold v rfl
      exact hes

theorem ListOf.append {P : Value → Prop} {item : Value} {old : Option Value}
    (hold : ∀ v ∈ old, ListOf P v) (hitem : P item) :
    ListOf P (.array (old.elim [] items ++ [item])) := by
  refine ⟨_, rfl, by simp, ?_⟩
  intro i hi
  rw [List.mem_append, List.mem_singleton] at hi
  rcases hi with hi | rfl
  · cases old with
    | none => simp at hi
    | some v =>
      obtain ⟨is, rfl, -, his⟩ := hold v rfl
      exact his i hi
  · exact hitem

/-! ## Shapes under merging -/

theorem HasKey.merge {key : String} {old incoming : Value} (h : HasKey key incoming) :
    HasKey key (merge old incoming) := by
  obtain ⟨es, rfl, hkey⟩ := h
  unfold Value.merge
  split
  · rename_i target
    exact ⟨_, rfl, mem_keys_mergeEntries.2 (Or.inr hkey)⟩
  · exact ⟨es, rfl, hkey⟩

theorem ObjectOf.merge {P : String → Value → Prop} {old incoming : Value}
    (hold : ObjectOf P old) (hincoming : ObjectOf P incoming)
    (hP : ∀ key a b, P key a → P key b → P key (Value.merge a b)) :
    ObjectOf P (merge old incoming) := by
  obtain ⟨target, rfl, hne, hdistinct, htarget⟩ := hold
  obtain ⟨es, rfl, -, -, hes⟩ := hincoming
  refine ⟨_, by rw [Value.merge], mergeEntries_ne_nil hne es, distinct_mergeEntries hdistinct es, ?_⟩
  exact forall_mergeEntries htarget hes (fun e he a ha => hP e.1 a e.2 ha (hes e he))

theorem ListOf.merge {P : Value → Prop} {old incoming : Value} (hold : ListOf P old)
    (hincoming : ListOf P incoming) : ListOf P (merge old incoming) := by
  obtain ⟨items, rfl, hne, hitems⟩ := hold
  obtain ⟨more, rfl, -, hmore⟩ := hincoming
  refine ⟨_, by rw [Value.merge], by simp [hne], ?_⟩
  intro i hi
  rcases List.mem_append.1 hi with hi | hi
  · exact hitems i hi
  · exact hmore i hi

end Value

/-! ## Shapes of operators -/

namespace Operator

def Fits : Operator → Value → Prop
  | .term => Value.ObjectOf (fun _ _ => True)
  | .matching _ => Value.ObjectOf (fun _ options => Value.HasKey "query" options)
  | .terms => Value.ListOf (Value.HasKey "minimum_should_match")
  | .regex => Value.ListOf (fun entry => ∃ name pattern, entry = .pair name (.string pattern))
  | .range =>
    Value.ObjectOf (fun _ => Value.ObjectOf (fun side _ => ∃ bound, side = Bound.key bound))

theorem Fits.merge {op : Operator} {old incoming : Value} (hold : op.Fits old)
    (hincoming : op.Fits incoming) : op.Fits (Value.merge old incoming) := by
  cases op <;> unfold Fits at *
  case term => exact hold.merge hincoming (fun _ _ _ _ _ => trivial)
  case matching => exact hold.merge hincoming (fun _ _ _ _ hb => hb.merge)
  case terms | regex => exact hold.merge hincoming
  case range =>
    refine hold.merge hincoming (fun _ _ _ ha hb => ?_)
    exact ha.merge hb (fun _ _ _ h _ => h)

end Operator

/-! ## Fields -/

namespace Field

theorem setMatchWith_occur {field next : Field} {text : Value} {options : Document}
    (h : field.setMatchWith text options = .ok next) : next.occur = field.occur := by
  cases hoptions : readOptions "match" options with
  | error error =>
    rw [setMatchWith_of_error hoptions] at h
    cases h
  | ok read =>
    rw [setMatchWith_of_ok hoptions] at h
    rw [← Except.ok.inj h]
    rfl

/-- Steps can reroute a field, but a field that has a group keeps one. -/
theorem occur_run_ne_none {field : Field} (h : field.occur ≠ none) : (step : FieldStep) →
    (step.run field).state.occur ≠ none
  | .matchingWith text options => by
    rw [FieldStep.run]
    cases hnext : field.setMatchWith text options with
    | error error => exact h
    | ok next => rwa [← setMatchWith_occur hnext] at h
  | .route _ => nofun
  | .attempt step => occur_run_ne_none h step
  | .bound .. | .is _ | .matching .. | .matchAll _ | .matchAny _ | .matchAtLeast .. | .regex _
  | .note => h

theorem occur_runAll_ne_none {field : Field} (h : field.occur ≠ none) (steps : List FieldStep) :
    (FieldStep.runAll steps field).state.occur ≠ none :=
  Outcome.runAll_induction (P := fun field => Field.occur field ≠ none) h
    (fun step _ _ hfield => occur_run_ne_none hfield step)

/-- What every field looks like that has been made by steps. -/
structure Sound (field : Field) : Prop where
  bounds_distinct : Distinct field.bounds
  bounds : ∀ e ∈ field.bounds, ∃ bound, e.1 = Bound.key bound
  operators : OfKinds Operator.key Operator.Fits field.operators

theorem sound_new (name : String) (occur : Option Occur) :
    Sound { name := name, occur := occur } where
  bounds_distinct := distinct_nil
  bounds := by simp
  operators := ofKinds_nil

theorem Sound.update_operators {field : Field} (h : field.Sound) (op : Operator)
    {f : Option Value → Value} (hf : ∀ old, (∀ v ∈ old, op.Fits v) → op.Fits (f old)) :
    Sound { field with operators := Entries.update op.key f field.operators } where
  bounds_distinct := h.bounds_distinct
  bounds := h.bounds
  operators := h.operators.update Operator.key_injective op hf

theorem Sound.setBound {field : Field} (h : field.Sound) (bound : Bound) (value : Value) :
    (field.setBound bound value).Sound where
  bounds_distinct := distinct_update h.bounds_distinct
  bounds := forall_update (P := fun side _ => ∃ bound, side = Bound.key bound) h.bounds ⟨bound, rfl⟩
    (fun _ ha => ha)
  operators := h.operators

theorem Sound.setTerm {field : Field} (h : field.Sound) (value : Value) :
    (field.setTerm value).Sound :=
  h.update_operators .term (fun _ hold =>
    Value.ObjectOf.update (P := fun _ _ => True) hold trivial (fun _ _ => trivial))

/-- Any options will do as long as the text is among them. -/
theorem Sound.setOperator_match {field : Field} (h : field.Sound) (kind : MatchKind)
    {options : Value} (hquery : options.HasKey "query") :
    (field.setOperator kind.key options).Sound :=
  h.update_operators (.matching kind) (fun _ hold =>
    Value.ObjectOf.update (P := fun _ options => options.HasKey "query") hold hquery
      (fun _ _ => hquery))

theorem Sound.addTerms {field : Field} (h : field.Sound) (values : List Value) (minimum : UInt64) :
    (field.addTerms values minimum).Sound := by
  refine h.update_operators .terms (fun _ hold =>
    Value.ListOf.append (P := Value.HasKey "minimum_should_match") hold ?_)
  exact ⟨_, rfl, mem_keys_update.2 (Or.inl rfl)⟩

theorem Sound.addRegex {field : Field} (h : field.Sound) (pattern : String) :
    (field.addRegex pattern).Sound :=
  h.update_operators .regex (fun _ hold =>
    Value.ListOf.append (P := fun e => ∃ name pattern, e = .pair name (.string pattern)) hold
      ⟨_, pattern, rfl⟩)

theorem Sound.route {field : Field} (h : field.Sound) (occur : Occur) :
    (field.route occur).Sound := ⟨h.bounds_distinct, h.bounds, h.operators⟩

/-- The selector options are taken out, and the text is none of them. -/
theorem query_mem_select {options : Entries Value} (h : "query" ∈ keys options) :
    "query" ∈ keys (MatchKind.select options).2 := by
  have hphrase : "query" ∈ keys (erase "phrase" options) := mem_keys_erase.2 ⟨by decide, h⟩
  unfold MatchKind.select
  split
  · exact hphrase
  · split
    · exact mem_keys_erase.2 ⟨by decide, hphrase⟩
    · exact hphrase

theorem Sound.setMatchWith {field next : Field} (h : field.Sound) {text : Value}
    {options : Document} (hnext : field.setMatchWith text options = .ok next) : next.Sound := by
  cases hoptions : readOptions "match" options with
  | error error =>
    rw [setMatchWith_of_error hoptions] at hnext
    cases hnext
  | ok read =>
    rw [setMatchWith_of_ok hoptions] at hnext
    rw [← Except.ok.inj hnext]
    apply h.setOperator_match
    exact ⟨_, rfl, query_mem_select (mem_keys_update.2 (Or.inl rfl))⟩

theorem Sound.run {field : Field} (h : field.Sound) : (step : FieldStep) →
    (step.run field).state.Sound
  | .bound side value => h.setBound side value
  | .is value => h.setTerm value
  | .matching kind text => h.setOperator_match kind ⟨_, rfl, by simp⟩
  | .matchingWith text options => by
    rw [FieldStep.run]
    cases hnext : field.setMatchWith text options with
    | error error => exact h
    | ok next => exact h.setMatchWith hnext
  | .matchAll values => h.addTerms values _
  | .matchAny values => h.addTerms values _
  | .matchAtLeast values minimum => h.addTerms values minimum
  | .regex pattern => h.addRegex pattern
  | .route occur => h.route occur
  | .note => h
  | .attempt step => h.run step

theorem Sound.runAll {field : Field} (h : field.Sound) (steps : List FieldStep) :
    (FieldStep.runAll steps field).state.Sound :=
  Outcome.runAll_induction h (fun step _ _ hfield => hfield.run step)

theorem Sound.payload {field : Field} (h : field.Sound) :
    OfKinds Operator.key Operator.Fits field.payload := by
  unfold Field.payload
  split
  · exact h.operators
  · rename_i hbounds
    have hrange : Operator.range.Fits (.pair field.name (.object field.bounds)) := by
      refine ⟨_, rfl, by simp, distinct_singleton _ _, ?_⟩
      intro e he
      rw [List.mem_singleton.1 he]
      exact ⟨_, rfl, by simpa using hbounds, h.bounds_distinct, h.bounds⟩
    exact h.operators.update Operator.key_injective .range (fun _ _ => hrange)

end Field

end SearchQuery
