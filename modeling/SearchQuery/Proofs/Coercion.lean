import SearchQuery.Proofs.Accumulation
import SearchQuery.Proofs.Host

/-!
# No clause gives way

A clause of the wrong shape would give way to a fresh one, and what it held would be lost. Here each
operation that could do so has a strict form, which goes on only where nothing stands, or something
of the right shape. In every state that steps can reach, the strict forms go on and do the same.
-/

namespace SearchQuery

open Entries

/-! ## Strict operations -/

/-- An update sees no more of the entries than what stands at its key. -/
theorem Entries.update_eq_insert {α : Type} (key : String) (f : Option α → α)
    (entries : Entries α) : update key f entries = insert key (f (get? key entries)) entries := by
  unfold insert
  induction entries with
  | nil => rfl
  | cons entry rest ih =>
    obtain ⟨k, a⟩ := entry
    rw [update, update, get?_cons]
    split
    · rfl
    · rw [ih]

namespace Value

/-- The entries to add to. Only an object has some, and where nothing stands there are none yet. -/
def entries? : Option Value → Option (Entries Value)
  | none => some []
  | some (.object entries) => some entries
  | some _ => none

/-- The items to add to. Only an array has some, and where nothing stands there are none yet. -/
def items? : Option Value → Option (List Value)
  | none => some []
  | some (.array items) => some items
  | some _ => none

end Value

namespace Clauses

/-- `append`, where no clause has to give way. -/
def append? (key : String) (item : Value) (clauses : Clauses) : Option Clauses := do
  let items ← Value.items? (get? key clauses)
  some (Entries.insert key (.array (items ++ [item])) clauses)

/-- `put`, where no clause has to give way. -/
def put? (key name : String) (value : Value) (clauses : Clauses) : Option Clauses := do
  let entries ← Value.entries? (get? key clauses)
  some (Entries.insert key (.object (Entries.insert name value entries)) clauses)

/-- `appendToGroup`, where neither the clause nor the group has to give way. -/
def appendToGroup? (occur : Occur) (item : Value) (clauses : Clauses) : Option Clauses := do
  let groups ← Value.entries? (get? "bool" clauses)
  let groups ← append? occur.key item groups
  some (Entries.insert "bool" (.object groups) clauses)

variable {clauses : Clauses}

theorem append?_eq {key : String} (h : ∀ v ∈ get? key clauses, ∃ items, v = .array items)
    (item : Value) : append? key item clauses = some (append key item clauses) := by
  unfold append? append
  rw [update_eq_insert]
  cases hslot : get? key clauses with
  | none => rfl
  | some v =>
    obtain ⟨items, rfl⟩ := h v hslot
    rfl

/-- Here `append` would lose the value that stands there. -/
example : append? "terms" .null [("terms", .bool true)] = none := rfl

theorem put?_eq {key : String} (h : ∀ v ∈ get? key clauses, ∃ entries, v = .object entries)
    (name : String) (value : Value) :
    put? key name value clauses = some (put key name value clauses) := by
  unfold put? put
  rw [update_eq_insert key]
  cases hslot : get? key clauses with
  | none => rfl
  | some v =>
    obtain ⟨entries, rfl⟩ := h v hslot
    rfl

/-- The groups of a `bool` clause, each with its entries. -/
def Grouped (value : Value) : Prop :=
  value.ObjectOf (fun key list =>
    (∃ occur, key = Occur.key occur) ∧ list.ListOf (fun _ => True))

theorem appendToGroup?_eq (h : ∀ v ∈ get? "bool" clauses, Grouped v) (occur : Occur)
    (item : Value) :
    clauses.appendToGroup? occur item = some (clauses.appendToGroup occur item) := by
  unfold appendToGroup? appendToGroup
  rw [update_eq_insert]
  cases hslot : get? "bool" clauses with
  | none => rfl
  | some v =>
    obtain ⟨groups, rfl, -, -, hgroups⟩ := h v hslot
    have hlist : ∀ list ∈ get? occur.key groups, ∃ items, list = .array items := by
      intro list hget
      obtain ⟨items, hitems, -⟩ := (hgroups _ (mem_of_get? hget)).2
      exact ⟨items, hitems⟩
    change (append? occur.key item groups).bind _ = _
    rw [append?_eq hlist]
    rfl

end Clauses

/-! ## Fields -/

/-- What an operator of a field holds. The range is none: it is written only at the end. -/
inductive Operator.HoldsFor (name : String) : Operator → Value → Prop where
  | term {operand : Value} : HoldsFor name .term (.pair name operand)
  | matching {kind : MatchKind} {operand : Value} :
      HoldsFor name (.matching kind) (.pair name operand)
  | terms {items : List Value} (nonempty : items ≠ []) : HoldsFor name .terms (.array items)
  | regex {items : List Value} (nonempty : items ≠ []) : HoldsFor name .regex (.array items)

namespace Operator.HoldsFor

variable {name : String} {op : Operator} {value : Value}

theorem of_list (hop : op.isList = true) {items : List Value} (h : items ≠ []) :
    op.HoldsFor name (.array items) := by
  cases op with
  | terms => exact .terms h
  | regex => exact .regex h
  | term | matching | range => cases hop

theorem of_operand (hop : op.isList = false) (hrange : op ≠ .range) (operand : Value) :
    op.HoldsFor name (.pair name operand) := by
  cases op with
  | term => exact .term
  | matching => exact .matching
  | range => exact absurd rfl hrange
  | terms | regex => cases hop

theorem array_of_list (h : op.HoldsFor name value) (hop : op.isList = true) :
    ∃ items, value = .array items := by
  cases h with
  | terms | regex => exact ⟨_, rfl⟩
  | term | matching => cases hop

theorem pair_of_operand (h : op.HoldsFor name value) (hop : op.isList = false) :
    ∃ operand, value = .pair name operand := by
  cases h with
  | term | matching => exact ⟨_, rfl⟩
  | terms | regex => cases hop

end Operator.HoldsFor

/-- The operators after a step, if none of them has to give way. -/
def FieldStep.operators? (step : FieldStep) (field : Field) : Option Clauses :=
  match step.operand? field.name with
  | none => some field.operators
  | some (op, operand) =>
    if op.isList then field.operators.append? op.key operand
    else field.operators.put? op.key field.name operand

/-- Nothing that the field holds gives way, whatever is done next. -/
structure Field.Keeps (field : Field) : Prop where
  operators : OfKinds Operator.key (Operator.HoldsFor field.name) field.operators
  steps : ∀ step : FieldStep, step.operators? field = some (step.run field).state.operators
  /-- The range has its key to itself. -/
  payload : "range" ∉ keys field.operators ∧
    field.payload = field.operators ++ if field.bounds.isEmpty then []
      else [("range", .pair field.name (.object field.bounds))]

namespace FieldStep

theorem name_run (field : Field) : (step : FieldStep) → (step.run field).state.name = field.name
  | .matchingWith text options => by
    rw [run]
    cases hread : readOptions "match" options with
    | error error => rw [Field.setMatchWith_of_error hread]; rfl
    | ok read => rw [Field.setMatchWith_of_ok hread]; rfl
  | .attempt step => by
    rw [run]
    exact name_run field step
  | .bound .. | .is _ | .matching .. | .matchAll _ | .matchAny _ | .matchAtLeast .. | .regex _
  | .route _ | .note => rfl

theorem operators_run (field : Field) (step : FieldStep) :
    (step.run field).state.operators =
      match step.operand? field.name with
      | none => field.operators
      | some (op, operand) =>
        if op.isList then field.operators.append op.key operand
        else field.operators.put op.key field.name operand := by
  induction step with
  | matchingWith text options =>
    rw [run, operand?]
    cases hread : readOptions "match" options with
    | error error =>
      rw [Field.setMatchWith_of_error hread]
      rfl
    | ok read =>
      rw [Field.setMatchWith_of_ok hread, MatchKind.select_insert]
      rfl
  | attempt step ih => exact ih
  | bound | «is» | matching | matchAll | matchAny | matchAtLeast | regex | route | note => rfl

end FieldStep

namespace Field

variable {field : Field}

/-- The operators hold what they should for the field. -/
def HoldsOperators (name : String) (field : Field) : Prop :=
  field.name = name ∧ OfKinds Operator.key (Operator.HoldsFor name) field.operators

theorem HoldsOperators.fits (h : field.HoldsOperators field.name) (op : Operator) :
    ∀ v ∈ get? op.key field.operators, op.HoldsFor field.name v :=
  fun _ hv => h.2.fits Operator.key_injective op hv

theorem HoldsOperators.operators? (h : field.HoldsOperators field.name) (step : FieldStep) :
    step.operators? field = some (step.run field).state.operators := by
  rw [step.operators_run, FieldStep.operators?]
  split
  · rfl
  · rename_i op operand _
    split
    · rename_i hop
      exact Clauses.append?_eq (fun v hv => (h.fits op v hv).array_of_list hop) _
    · rename_i hop
      refine Clauses.put?_eq (fun v hv => ?_) _ _
      obtain ⟨held, hheld⟩ := (h.fits op v hv).pair_of_operand (by simpa using hop)
      exact ⟨_, hheld⟩

theorem HoldsOperators.run {name : String} (h : field.HoldsOperators name) (step : FieldStep) :
    (step.run field).state.HoldsOperators name := by
  obtain ⟨rfl, hoperators⟩ := h
  refine ⟨step.name_run field, ?_⟩
  rw [step.operators_run]
  split
  · exact hoperators
  · rename_i op operand hoperand
    have hrange : op ≠ .range := FieldStep.operand?_ne_range hoperand
    split
    · rename_i hop
      exact hoperators.update Operator.key_injective op (fun _ _ => .of_list hop (by simp))
    · rename_i hop
      rw [Bool.not_eq_true] at hop
      refine hoperators.update Operator.key_injective op (fun old hold => ?_)
      -- What stands there is under the name of the field, so the operand takes its place.
      have hpair : Entries.insert field.name operand (old.elim [] Value.entries) =
          [(field.name, operand)] := by
        cases old with
        | none => rfl
        | some v =>
          obtain ⟨held, rfl⟩ := (hold v rfl).pair_of_operand hop
          simp [Value.pair, Value.entries, Entries.insert, update]
      rw [hpair]
      exact .of_operand hop hrange operand

theorem HoldsOperators.keeps (h : field.HoldsOperators field.name) : field.Keeps := by
  have hrange : "range" ∉ keys field.operators := by
    intro hmem
    obtain ⟨e, he, hkey⟩ := List.mem_map.1 hmem
    obtain ⟨op, hop, hholds⟩ := h.2.2 e he
    obtain rfl : Operator.range = op := Operator.key_injective (hkey.symm.trans hop)
    cases hholds
  refine ⟨h.2, h.operators?, hrange, ?_⟩
  unfold Field.payload
  split
  · rw [List.append_nil]
  · exact update_of_not_mem hrange _

theorem keeps_runAll (name : String) (occur : Option Occur) (steps : List FieldStep) :
    (FieldStep.runAll steps { name := name, occur := occur }).state.Keeps := by
  have hholds :
      (FieldStep.runAll steps { name := name, occur := occur }).state.HoldsOperators name :=
    Outcome.runAll_induction (P := HoldsOperators name) ⟨rfl, ofKinds_nil⟩
      (fun step _ _ hfield => hfield.run step)
  exact HoldsOperators.keeps (hholds.1.symm ▸ hholds)

end Field

/-! ## Drafts -/

/-- The clauses after an edit, if none of them has to give way. -/
def Edit.clauses? (draft : Draft) : Edit → Option Clauses
  | .clause key content =>
    if draft.isRoot then
      draft.clauses.appendToGroup? .must (Draft.group.store key content).document.toValue
    else some (Entries.insert key content draft.clauses)
  | .entry occur item => draft.clauses.appendToGroup? occur item.toValue
  | .filtered item => draft.clauses.append? "filtered" item.toValue
  | .declare _ _ => some draft.clauses
  | .aggregations found =>
    if draft.hasAggregations then some draft.clauses
    else some (Entries.insert "aggs" (.deferred (Aggregation.clause found)) draft.clauses)
  | .sort _ _ => some draft.clauses

namespace Draft

/-- Places a field, if no clause has to give way to its group. -/
def place? (clauses : Clauses) (field : Field) : Option Clauses :=
  match field.occur with
  | some occur => clauses.appendToGroup? occur (.object field.payload)
  | none => some (Value.mergeEntries clauses field.payload)

/-- All clauses, if none of them has to give way while the fields are placed one after the other. -/
def allClauses? (draft : Draft) : Option Clauses := draft.fields.foldlM place? draft.clauses

/-- Every clause has the shape that the operations on it need. -/
structure Shaped (draft : Draft) : Prop where
  distinct : Distinct draft.clauses
  keys : ∀ key ∈ keys draft.clauses,
    key ∈ ["query_string", "multi_match", "bool", "filtered", "aggs"]
  bool : ∀ v ∈ get? "bool" draft.clauses, Clauses.Grouped v
  filtered : ∀ v ∈ get? "filtered" draft.clauses, v.ListOf (fun _ => True)
  /-- A root has no bare clause. -/
  fullText : ∀ key ∈ ["query_string", "multi_match"], ∀ v ∈ get? key draft.clauses,
    draft.isRoot = false ∧ ∃ entries, v = .object entries
  routed : draft.isRoot = true → ∀ field ∈ draft.fields, field.occur ≠ none
  fields : ∀ field ∈ draft.fields, field.Keeps

variable {allowed : ClauseKind → Prop} {clauses : Clauses} {draft : Draft}

theorem ClausesOf.fits_of (h : ClausesOf allowed clauses) (kind : ClauseKind) :
    ∀ v ∈ get? kind.key clauses, allowed kind ∧ kind.Fits v :=
  fun _ hv => h.fits ClauseKind.key_injective kind hv

theorem ClausesOf.grouped (h : ClausesOf allowed clauses) :
    ∀ v ∈ get? "bool" clauses, Clauses.Grouped v := by
  intro v hv
  obtain ⟨groups, rfl, hne, hdistinct, hgroups⟩ := (h.fits_of .bool v hv).2
  refine ⟨groups, rfl, hne, hdistinct, fun g hg => ⟨(hgroups g hg).1, ?_⟩⟩
  obtain ⟨items, hitems, hnonempty, -⟩ := (hgroups g hg).2
  exact ⟨items, hitems, hnonempty, fun _ _ => trivial⟩

theorem Sound.shaped (h : draft.Sound) (hfields : ∀ field ∈ draft.fields, field.Keeps) :
    draft.Shaped where
  distinct := h.clauses.1
  keys := by
    intro key hkey
    obtain ⟨e, he, rfl⟩ := List.mem_map.1 hkey
    obtain ⟨kind, hkind, hstores, -⟩ := h.clauses.2 e he
    rw [hkind]
    cases kind with
    | operator op => exact hstores.elim
    | queryString | multiMatch | bool | filtered | aggs => simp [ClauseKind.key]
  bool := h.clauses.grouped
  filtered := by
    intro v hv
    obtain ⟨items, hitems, hne, -⟩ := (h.clauses.fits_of .filtered v hv).2
    exact ⟨items, hitems, hne, fun _ _ => trivial⟩
  fullText := by
    intro key hkey v hv
    have hobject : ∀ {key : String}, v.HasKey key → ∃ entries, v = .object entries :=
      fun hfits => hfits.imp (fun _ hentries => hentries.1)
    simp only [List.mem_cons, List.not_mem_nil, or_false] at hkey
    rcases hkey with rfl | rfl
    · obtain ⟨hstores, hfits⟩ := h.clauses.fits_of .queryString v hv
      exact ⟨hstores, hobject hfits⟩
    · obtain ⟨hstores, hfits⟩ := h.clauses.fits_of .multiMatch v hv
      exact ⟨hstores, hobject hfits.1⟩
  routed := h.routed
  fields := hfields

theorem ClausesOf.place?_eq (h : ClausesOf allowed clauses) (field : Field) :
    place? clauses field = some (Draft.place clauses field) := by
  unfold place? Draft.place
  cases field.occur with
  | some occur => exact Clauses.appendToGroup?_eq h.grouped occur _
  | none => rfl

theorem ClausesOf.foldlM_place? {isRoot : Bool} {fields : List Field}
    (h : ClausesOf (Finishes isRoot) clauses) (hfields : ∀ field ∈ fields, field.Sound)
    (hrouted : isRoot = true → ∀ field ∈ fields, field.occur ≠ none) :
    fields.foldlM place? clauses = some (fields.foldl Draft.place clauses) := by
  induction fields generalizing clauses with
  | nil => rfl
  | cons field rest ih =>
    rw [List.forall_mem_cons] at hfields
    have hrouted := fun hroot => List.forall_mem_cons.1 (hrouted hroot)
    rw [List.foldlM_cons, h.place?_eq, List.foldl_cons]
    exact ih (h.place hfields.1 (fun hroot => (hrouted hroot).1)) hfields.2
      (fun hroot => (hrouted hroot).2)

theorem Sound.allClauses?_eq (h : draft.Sound) : draft.allClauses? = some draft.allClauses :=
  h.finishes.foldlM_place? h.fields h.routed

end Draft

theorem Edit.clauses?_eq {draft : Draft} (h : draft.Sound) (edit : Edit) :
    edit.clauses? draft = some (edit.apply draft).clauses := by
  cases edit with
  | clause key content =>
    rw [clauses?, apply, Draft.addClause]
    split
    · exact Clauses.appendToGroup?_eq h.clauses.grouped _ _
    · rfl
  | entry occur item => exact Clauses.appendToGroup?_eq h.clauses.grouped _ _
  | filtered item =>
    refine Clauses.append?_eq (fun v hv => ?_) _
    exact (h.clauses.fits_of .filtered v hv).2.imp (fun _ hitems => hitems.1)
  | aggregations found =>
    rw [clauses?, apply]
    split <;> rfl
  | declare | sort => rfl

/-! ## Runs -/

namespace Host

variable {α σ : Type} (host : Host α σ)

/-- The clauses after a step, if none of them has to give way. -/
def clauses? (step : α) (state : σ) : Option Clauses :=
  (host.edit? step).elim (some (host.draft state).clauses)
    (fun edit => edit.clauses? (host.draft state))

/-- Nothing that the draft holds gives way, whatever is done next and when it is finished. -/
structure Keeps (state : σ) : Prop where
  shaped : (host.draft state).Shaped
  steps : ∀ step, host.clauses? step state = some (host.draft (host.run step state).state).clauses
  finish : (host.draft state).allClauses? = some (host.draft state).allClauses

variable {host} {start : σ}

theorem keepsFields_run (step : α) {state : σ}
    (h : ∀ field ∈ (host.draft state).fields, field.Keeps) :
    ∀ field ∈ (host.draft (host.run step state).state).fields, field.Keeps := by
  refine draft_run (P := fun draft => ∀ field ∈ draft.fields, field.Keeps) h (fun edit _ => ?_)
  rw [Edit.fields_apply, List.forall_mem_append]
  refine ⟨h, fun field hfield => ?_⟩
  cases edit with
  | declare name steps =>
    obtain rfl := Option.some.inj (Option.mem_toList.1 hfield)
    exact Field.keeps_runAll name _ steps
  | clause | entry | filtered | aggregations | sort => exact nomatch Option.mem_toList.1 hfield

theorem keeps_reached (hsound : (host.draft start).Sound)
    (hfields : ∀ field ∈ (host.draft start).fields, field.Keeps) (steps : List α) :
    host.Keeps (host.reached start steps) := by
  have hreached := host.sound_reached start steps hsound
  have hkept : ∀ field ∈ (host.draft (host.reached start steps)).fields, field.Keeps :=
    Outcome.runAll_induction
      (P := fun state => ∀ field ∈ (host.draft state).fields, field.Keeps) hfields
      (fun step _ _ h => keepsFields_run step h)
  refine ⟨hreached.shaped hkept, fun step => ?_, hreached.allClauses?_eq⟩
  rw [host.run_state, clauses?]
  cases host.edit? step with
  | none => rfl
  | some edit => exact edit.clauses?_eq hreached

end Host

/-- In every state that steps can reach, whether they fail or not, each clause has its shape. So no
clause ever gives way to one of another shape: not to a step, not when the fields are placed, and
not to the range of a field. -/
theorem no_clause_gives_way :
    (∀ (name : String) (occur : Option Occur) (steps : List FieldStep),
      (FieldStep.runAll steps { name := name, occur := occur }).state.Keeps) ∧
    (∀ (isRoot : Bool) (steps : List Step),
      Step.host.Keeps (Step.runAll steps { isRoot := isRoot }).state) ∧
    (∀ steps : List FilterStep, FilterStep.host.Keeps (FilterStep.runAll steps {}).state) := by
  simp only [Step.runAll_eq, FilterStep.runAll_eq]
  have hnone : ∀ field ∈ ([] : List Field), field.Keeps := List.forall_mem_nil _
  exact ⟨Field.keeps_runAll,
    fun isRoot steps => Host.keeps_reached (Draft.sound_new isRoot) hnone steps,
    fun steps => Host.keeps_reached (Draft.sound_new false) hnone steps⟩

end SearchQuery
