import SearchQuery.Proofs.Explicit

/-!
# Placing fields that are finished

The values of a field are resolved together with its draft, after it has been placed. They can just
as well be resolved before, because placing a field looks at its operators and at the name under
each, and at nothing deeper. Only where two fields of one name are merged do their values meet.
-/

namespace SearchQuery

open Entries

/-! ## Joining finished clauses -/

namespace Document

/-- Puts two objects or two arrays after each other. In every other case the incoming document takes
the place of the old one. -/
def join : Document → Document → Document
  | .object target, .object incoming => .object (target ++ incoming)
  | .array items, .array incoming => .array (items ++ incoming)
  | _, incoming => incoming

def joinEntries (target incoming : Entries Document) : Entries Document :=
  incoming.foldl (fun joined entry =>
    update entry.1 (fun old => old.elim entry.2 (join · entry.2)) joined) target

end Document

namespace Value

theorem ObjectOf.resolve_merge {P : String → Value → Prop} {old incoming : Value}
    (hold : ObjectOf P old) (hincoming : ObjectOf P incoming)
    (hdisjoint : ∀ key ∈ keys old.entries, key ∉ keys incoming.entries) :
    (Value.merge old incoming).resolve = (Value.resolve old).join (Value.resolve incoming) := by
  obtain ⟨target, rfl, -, htarget, -⟩ := hold
  obtain ⟨es, rfl, -, hes, -⟩ := hincoming
  have hdistinct : Distinct (target ++ es) := by
    unfold Distinct
    rw [keys_append]
    refine List.nodup_append.2 ⟨htarget, hes, fun key hkey other hother heq => ?_⟩
    exact hdisjoint key hkey (heq ▸ hother)
  rw [Value.merge, mergeEntries_of_distinct hdistinct]
  simp [Value.resolve, resolveEntries_eq_map, Document.join]

theorem ListOf.resolve_merge {P : Value → Prop} {old incoming : Value} (hold : ListOf P old)
    (hincoming : ListOf P incoming) :
    (Value.merge old incoming).resolve = (Value.resolve old).join (Value.resolve incoming) := by
  obtain ⟨items, rfl, -, -⟩ := hold
  obtain ⟨more, rfl, -, -⟩ := hincoming
  simp [Value.merge, Value.resolve, resolveItems_eq_map, Document.join]

/-- Merging can be done after the resolution if no two values meet deeper down. -/
theorem resolveEntries_mergeEntries {target incoming : Entries Value} (h : Distinct incoming)
    (hmerge : ∀ e ∈ incoming, ∀ old ∈ get? e.1 target,
      (merge old e.2).resolve = old.resolve.join e.2.resolve) :
    resolveEntries (mergeEntries target incoming) =
      Document.joinEntries (resolveEntries target) (resolveEntries incoming) := by
  induction incoming generalizing target with
  | nil => rw [mergeEntries]; rfl
  | cons entry rest ih =>
    obtain ⟨key, value⟩ := entry
    rw [List.forall_mem_cons] at hmerge
    have hnodup := List.nodup_cons.1 h
    have hhead : resolveEntries (update key (mergeAt · value) target) =
        update key (fun old => old.elim value.resolve (Document.join · value.resolve))
          (resolveEntries target) := by
      apply resolveEntries_update
      cases hold : get? key target with
      | none => rfl
      | some old => exact hmerge.1 old hold
    rw [mergeEntries_cons, ih hnodup.2, hhead]
    · rfl
    · intro e he old hold
      have hne : e.1 ≠ key := fun heq => hnodup.1 (heq ▸ mem_keys he)
      rw [get?_update_of_ne hne] at hold
      exact hmerge.2 e he old hold

end Value

theorem Value.mem_keys_merge {old incoming : Value} {key : String}
    (h : key ∈ keys (merge old incoming).entries) :
    key ∈ keys old.entries ∨ key ∈ keys incoming.entries := by
  unfold merge at h
  split at h
  · split at h
    · exact mem_keys_mergeEntries.1 h
    · exact Or.inr h
  · split at h <;> cases h
  · exact Or.inr h

theorem Operator.Fits.resolve_merge {op : Operator} {old incoming : Value} (hold : op.Fits old)
    (hincoming : op.Fits incoming)
    (hdisjoint : ∀ key ∈ keys old.entries, key ∉ keys incoming.entries) :
    (Value.merge old incoming).resolve = old.resolve.join incoming.resolve := by
  cases op <;> unfold Fits at hold hincoming
  case term | matching | range => exact hold.resolve_merge hincoming hdisjoint
  case terms | regex => exact hold.resolve_merge hincoming

/-! ## The names under operators -/

namespace Clauses

/-- If the clause at `key` is an operator, the names that it holds operands for have `P`. -/
def OperandsFor (P : String → Prop) (key : String) (clause : Value) : Prop :=
  ∀ op, key = Operator.key op → ∀ name ∈ keys clause.entries, P name

def NamesOnly (P : String → Prop) (clauses : Clauses) : Prop :=
  ∀ e ∈ clauses, OperandsFor P e.1 e.2

variable {P Q : String → Prop} {clauses : Clauses}

theorem NamesOnly.mono (h : NamesOnly P clauses) (hPQ : ∀ name, P name → Q name) :
    NamesOnly Q clauses := fun e he op hop name hname => hPQ name (h e he op hop name hname)

theorem NamesOnly.update (h : NamesOnly P clauses) {key : String} {f : Option Value → Value}
    (hf : ∀ old : Option Value, (∀ v ∈ old, ∀ name ∈ keys v.entries, P name) →
      ∀ name ∈ keys (f old).entries, P name) : NamesOnly P (Entries.update key f clauses) := by
  refine forall_update (P := OperandsFor P) h ?_ ?_
  · exact fun _ _ => hf none nofun
  · intro v hv op hop
    refine hf (some v) (fun w hw => ?_)
    obtain rfl := Option.some.inj hw
    exact hv op hop

theorem NamesOnly.put (h : NamesOnly P clauses) (key : String) {name : String} (hname : P name)
    (value : Value) : NamesOnly P (clauses.put key name value) := by
  refine h.update (fun old hold other hother => ?_)
  rcases mem_keys_update.1 hother with rfl | hother
  · exact hname
  · cases old with
    | none => cases hother
    | some v => exact hold v rfl other hother

/-- A list holds no operands. -/
theorem NamesOnly.append (h : NamesOnly P clauses) (key : String) (item : Value) :
    NamesOnly P (clauses.append key item) := h.update (fun _ _ => nofun)

theorem NamesOnly.appendToGroup (h : NamesOnly P clauses) (occur : Occur) (item : Value) :
    NamesOnly P (clauses.appendToGroup occur item) := by
  refine forall_update (P := OperandsFor P) h ?_ (fun _ _ => ?_)
  all_goals exact fun op hop => absurd hop.symm (Operator.key_ne_kind .bool nofun op)

theorem NamesOnly.merge (h : NamesOnly P clauses) {incoming : Clauses}
    (hincoming : NamesOnly P incoming) : NamesOnly P (Value.mergeEntries clauses incoming) := by
  refine Value.forall_mergeEntries (P := OperandsFor P) h hincoming ?_
  intro e he old hold op hop name hname
  rcases Value.mem_keys_merge hname with hname | hname
  · exact hold op hop name hname
  · exact hincoming e he op hop name hname

end Clauses

namespace Field

/-- The operators of the field hold operands for no other field. -/
def Named (field : Field) : Prop := field.operators.NamesOnly (· = field.name)

variable {field : Field}

theorem named_new (name : String) (occur : Option Occur) :
    Named { name := name, occur := occur } := nofun

theorem Named.setOperator (h : field.Named) (key : String) (operand : Value) :
    (field.setOperator key operand).Named := Clauses.NamesOnly.put h key rfl operand

theorem Named.run (h : field.Named) : (step : FieldStep) → (step.run field).state.Named
  | .is value => h.setOperator "term" value
  | .matching kind text => h.setOperator kind.key _
  | .matchingWith text options => by
    rw [FieldStep.run]
    cases hoptions : readOptions "match" options with
    | error error =>
      rw [setMatchWith_of_error hoptions]
      exact h
    | ok read =>
      rw [setMatchWith_of_ok hoptions]
      exact h.setOperator _ _
  | .matchAll _ | .matchAny _ | .matchAtLeast .. | .regex _ => Clauses.NamesOnly.append h _ _
  | .bound .. | .route _ | .note => h
  | .attempt step => h.run step

theorem Named.runAll (h : field.Named) (steps : List FieldStep) :
    (FieldStep.runAll steps field).state.Named :=
  Outcome.runAll_induction h (fun step _ _ hfield => hfield.run step)

theorem Named.payload (h : field.Named) : field.payload.NamesOnly (· = field.name) := by
  unfold Field.payload
  split
  · exact h
  · exact Clauses.NamesOnly.update h (fun _ _ => by simp [Value.pair, Value.entries])

end Field

/-! ## Finished fields -/

/-- A field whose values are resolved. -/
structure FinishedField where
  name : String
  occur : Option Occur
  bounds : Entries Document
  operators : Entries Document

namespace FinishedField

def payload (field : FinishedField) : Entries Document :=
  if field.bounds.isEmpty then field.operators
  else insert "range" (.object [(field.name, .object field.bounds)]) field.operators

def place (clauses : Entries Document) (field : FinishedField) : Entries Document :=
  match field.occur with
  | some occur => Document.appendToGroup occur (.object field.payload) clauses
  | none => Document.joinEntries clauses field.payload

end FinishedField

def Field.finish (field : Field) : FinishedField where
  name := field.name
  occur := field.occur
  bounds := Value.resolveEntries field.bounds
  operators := Value.resolveEntries field.operators

theorem Field.finish_occur (field : Field) : field.finish.occur = field.occur := rfl

theorem Field.resolve_payload (field : Field) :
    Value.resolveEntries field.payload = field.finish.payload := by
  have hempty : (Value.resolveEntries field.bounds).isEmpty = field.bounds.isEmpty := by
    rw [Value.resolveEntries_eq_map, List.isEmpty_map]
  unfold Field.payload FinishedField.payload Field.finish
  simp only [hempty]
  split
  · rfl
  · exact Value.resolveEntries_insert "range" (.pair field.name (.object field.bounds)) _

/-! ## Fields that do not meet -/

/-- The two fields are not both without a group, or their names differ. -/
def FinishedField.Apart (first second : FinishedField) : Prop :=
  first.occur = none → second.occur = none → first.name ≠ second.name

instance (first second : FinishedField) : Decidable (first.Apart second) :=
  inferInstanceAs (Decidable (first.occur = none → second.occur = none → first.name ≠ second.name))

def Field.Apart (first second : Field) : Prop := first.finish.Apart second.finish

instance (first second : Field) : Decidable (first.Apart second) :=
  inferInstanceAs (Decidable (first.finish.Apart second.finish))

namespace Draft

/-- Outside a root, no two fields without a group have one name. -/
def Apart (draft : Draft) : Prop := draft.isRoot = false → draft.fields.Pairwise Field.Apart

instance (draft : Draft) : Decidable draft.Apart :=
  inferInstanceAs (Decidable (draft.isRoot = false → draft.fields.Pairwise Field.Apart))

/-- What every draft looks like whose fields have been made by steps. -/
def Named (draft : Draft) : Prop := ∀ field ∈ draft.fields, field.Named

theorem named_applyAll (edits : List Edit) (isRoot : Bool) :
    (Edit.applyAll edits { isRoot := isRoot }).Named := by
  intro field hfield
  rw [Edit.fields_applyAll, List.nil_append] at hfield
  obtain ⟨edit, -, hedit⟩ := List.mem_filterMap.1 hfield
  cases edit with
  | declare name steps =>
    obtain rfl := Option.some.inj hedit
    exact (Field.named_new name _).runAll steps
  | _ => cases hedit

variable {isRoot : Bool} {clauses : Clauses} {field : Field} {Placed : String → Prop}

/-- A field without a group meets only the operands of those that have been placed before. -/
theorem resolve_place (h : ClausesOf (Finishes isRoot) clauses) (hplaced : clauses.NamesOnly Placed)
    (hsound : field.Sound) (hnamed : field.Named)
    (hnew : field.occur = none → ¬ Placed field.name) :
    Value.resolveEntries (place clauses field) =
      field.finish.place (Value.resolveEntries clauses) := by
  unfold place FinishedField.place
  rw [field.finish_occur, ← field.resolve_payload]
  cases hoccur : field.occur with
  | some occur => exact h.resolve_appendToGroup occur (.object field.payload)
  | none =>
    refine Value.resolveEntries_mergeEntries hsound.payload.1 (fun e he old hold => ?_)
    obtain ⟨op, hkey, hfits⟩ := hsound.payload.2 e he
    have hmem := mem_of_get? hold
    rw [hkey] at hold
    have hold : op.Fits old := (h.fits ClauseKind.key_injective (.operator op) hold).2
    refine hold.resolve_merge hfits (fun name hname hown => hnew hoccur ?_)
    obtain rfl := hnamed.payload e he op hkey name hown
    exact hplaced _ hmem op hkey field.name hname

theorem namesOnly_place (hplaced : clauses.NamesOnly Placed) (hnamed : field.Named) :
    (place clauses field).NamesOnly
      (fun name => Placed name ∨ field.occur = none ∧ name = field.name) := by
  have hmore := hplaced.mono (Q := fun name => Placed name ∨ field.occur = none ∧ name = field.name)
    (fun _ hname => Or.inl hname)
  unfold place
  split
  · exact hmore.appendToGroup _ _
  · rename_i hoccur
    exact hmore.merge (hnamed.payload.mono (fun _ hname => Or.inr ⟨hoccur, hname⟩))

theorem resolve_foldl_place_apart {fields : List Field}
    (h : ClausesOf (Finishes isRoot) clauses) (hplaced : clauses.NamesOnly Placed)
    (hsound : ∀ field ∈ fields, field.Sound) (hnamed : ∀ field ∈ fields, field.Named)
    (hrouted : isRoot = true → ∀ field ∈ fields, field.occur ≠ none)
    (hapart : fields.Pairwise Field.Apart)
    (hnew : ∀ field ∈ fields, field.occur = none → ¬ Placed field.name) :
    Value.resolveEntries (fields.foldl place clauses) =
      (fields.map Field.finish).foldl FinishedField.place (Value.resolveEntries clauses) := by
  -- `Placed` grows with every field that has no group, and no later one may be among them.
  induction fields generalizing clauses Placed with
  | nil => rfl
  | cons field rest ih =>
    rw [List.forall_mem_cons] at hsound hnamed hnew
    rw [List.pairwise_cons] at hapart
    have hrest : isRoot = true → field.occur ≠ none ∧ ∀ next ∈ rest, next.occur ≠ none :=
      fun hroot => List.forall_mem_cons.1 (hrouted hroot)
    rw [List.foldl_cons, List.map_cons, List.foldl_cons,
      ← resolve_place h hplaced hsound.1 hnamed.1 hnew.1]
    refine ih (h.place hsound.1 (fun hroot => (hrest hroot).1)) (namesOnly_place hplaced hnamed.1)
      hsound.2 hnamed.2 (fun hroot => (hrest hroot).2) hapart.2 ?_
    rintro next hnext hoccur (hname | ⟨hfirst, hname⟩)
    · exact hnew.2 next hnext hoccur hname
    · exact hapart.1 next hnext hfirst hoccur hname.symm

/-- The document of a draft whose fields do not meet depends on their values only as far as these
are resolved. -/
theorem Sound.resolve_allClauses {draft : Draft} (h : draft.Sound) (hnamed : draft.Named)
    (hapart : draft.Apart) :
    Value.resolveEntries draft.allClauses = (draft.fields.map Field.finish).foldl
      FinishedField.place (Value.resolveEntries draft.clauses) := by
  have hnone : draft.clauses.NamesOnly (fun _ => False) := by
    intro e he op hop
    obtain ⟨kind, hkey, hstores, -⟩ := h.clauses.2 e he
    obtain rfl : kind = .operator op := ClauseKind.key_injective (hkey.symm.trans hop)
    exact hstores.elim
  have hpairs : draft.fields.Pairwise Field.Apart := by
    cases hroot : draft.isRoot with
    | false => exact hapart hroot
    | true =>
      have hall : draft.fields.Pairwise (fun _ _ => True) :=
        List.pairwise_of_forall (fun _ _ => trivial)
      exact hall.imp_of_mem (fun hfirst _ _ hoccur => absurd hoccur (h.routed hroot _ hfirst))
  exact resolve_foldl_place_apart h.finishes hnone h.fields hnamed h.routed hpairs (fun _ _ _ => id)

end Draft

end SearchQuery
