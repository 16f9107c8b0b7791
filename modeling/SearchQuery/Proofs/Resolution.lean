import SearchQuery.Proofs.Merging

/-!
# Merging before and after resolution

A merge sees the shape of what it merges and the keys of objects, and no more. Resolution keeps both,
but for a deferred value, which may resolve to anything. So without deferred values it makes no
difference which of the merged values have been made into documents before.
-/

namespace SearchQuery

open Entries

theorem Number.shape_toValue (n : Number) : n.toValue.shape = .leaf := by
  cases n with
  | int n h =>
    simp only [Number.toValue]
    split <;> rfl
  | float x h => rfl

namespace Value

/-! ## Values that a merge does not tell apart -/

mutual

/-- They resolve to the same document, and objects and arrays stand in the same places of both. Inside
arrays a merge never looks. -/
inductive Alike : Value → Value → Prop where
  | object {entries other : List (String × Value)} (each : EntriesAlike entries other) :
      Alike (.object entries) (.object other)
  | array {items other : List Value} (resolved : resolveItems items = resolveItems other) :
      Alike (.array items) (.array other)
  | leaf {value other : Value} (shape : value.shape = .leaf) (shape' : other.shape = .leaf)
      (resolved : value.resolve = other.resolve) : Alike value other

inductive EntriesAlike : List (String × Value) → List (String × Value) → Prop where
  | nil : EntriesAlike [] []
  | cons (key : String) {value other : Value} {rest more : List (String × Value)}
      (head : Alike value other) (tail : EntriesAlike rest more) :
      EntriesAlike ((key, value) :: rest) ((key, other) :: more)

end

mutual

theorem Alike.resolve_eq {value other : Value} : Alike value other → value.resolve = other.resolve
  | .object each => by rw [resolve, resolve, each.resolve_eq]
  | .array resolved => by rw [resolve, resolve, resolved]
  | .leaf _ _ resolved => resolved

theorem EntriesAlike.resolve_eq {entries other : List (String × Value)} :
    EntriesAlike entries other → resolveEntries entries = resolveEntries other
  | .nil => rfl
  | .cons key head tail => by rw [resolveEntries, resolveEntries, head.resolve_eq, tail.resolve_eq]

end

mutual

theorem Alike.refl : (value : Value) → Alike value value
  | .object entries => .object (EntriesAlike.refl entries)
  | .array _ => .array rfl
  | .null | .bool _ | .float _ | .integer _ | .unsigned _ | .string _ | .deferred _ =>
    .leaf rfl rfl rfl

theorem EntriesAlike.refl : (entries : List (String × Value)) → EntriesAlike entries entries
  | [] => .nil
  | (key, value) :: rest => .cons key (Alike.refl value) (EntriesAlike.refl rest)

end

theorem Alike.shape_eq {value other : Value} : Alike value other → value.shape = other.shape
  | .object _ => rfl
  | .array _ => rfl
  | .leaf shape shape' _ => shape.trans shape'.symm

/-! ## Merging values that are alike -/

/-- Where the incoming value takes the place of one, it takes the place of the other too. -/
theorem Alike.replace {old old' incoming incoming' : Value} (hold : Alike old old')
    (hincoming : Alike incoming incoming')
    (h : old.shape = incoming.shape → incoming.shape = .leaf) :
    Alike (Value.merge old incoming) (Value.merge old' incoming') := by
  have h' : old'.shape = incoming'.shape → incoming'.shape = .leaf := by
    rwa [← hold.shape_eq, ← hincoming.shape_eq]
  rw [merge_of_shape old h, merge_of_shape old' h']
  exact hincoming

theorem EntriesAlike.update {key : String} {f g : Option Value → Value}
    (hnew : Alike (f none) (g none)) (hold : ∀ a b, Alike a b → Alike (f (some a)) (g (some b)))
    {entries other : List (String × Value)} (h : EntriesAlike entries other) :
    EntriesAlike (Entries.update key f entries) (Entries.update key g other) := by
  cases h with
  | nil => exact .cons key hnew .nil
  | cons k head tail =>
    unfold Entries.update
    split
    · exact .cons k (hold _ _ head) tail
    · exact .cons k head (tail.update hnew hold)

mutual

theorem Alike.merge {old old' incoming incoming' : Value} (hold : Alike old old') :
    Alike incoming incoming' → Alike (Value.merge old incoming) (Value.merge old' incoming')
  | .object each => by
    cases hold with
    | object each' => exact .object (each'.mergeEntries each)
    | array _ => exact .object each
    | leaf shape shape' resolved =>
      exact (Alike.leaf shape shape' resolved).replace (.object each) (fun h => h.symm.trans shape)
  | .array resolved => by
    cases hold with
    | object _ => exact .array resolved
    | array resolved' =>
      rw [resolveItems_eq_map, resolveItems_eq_map] at resolved resolved'
      refine .array ?_
      rw [resolveItems_eq_map, resolveItems_eq_map, List.map_append, List.map_append, resolved,
        resolved']
    | leaf shape shape' resolved' =>
      exact (Alike.leaf shape shape' resolved').replace (.array resolved)
        (fun h => h.symm.trans shape)
  | .leaf shape shape' resolved => hold.replace (.leaf shape shape' resolved) (fun _ => shape)

theorem EntriesAlike.mergeEntries {target target' incoming incoming' : List (String × Value)}
    (htarget : EntriesAlike target target') : EntriesAlike incoming incoming' →
      EntriesAlike (Value.mergeEntries target incoming) (Value.mergeEntries target' incoming')
  | .nil => by
    rw [Value.mergeEntries, Value.mergeEntries]
    exact htarget
  | .cons key head tail => by
    rw [mergeEntries_cons, mergeEntries_cons]
    exact (htarget.update head (fun _ _ hold => hold.merge head)).mergeEntries tail

end

/-! ## Plain values -/

mutual

/-- Nothing in the value is deferred. -/
def isPlain : Value → Bool
  | .deferred _ => false
  | .array items => arePlain items
  | .object entries => havePlain entries
  | _ => true

def arePlain : List Value → Bool
  | [] => true
  | value :: rest => value.isPlain && arePlain rest

def havePlain : List (String × Value) → Bool
  | [] => true
  | (_, value) :: rest => value.isPlain && havePlain rest

end

theorem alike_of_number {value : Value} {n : Number} (hshape : value.shape = .leaf)
    (h : value.resolve = .number n) : Alike value value.resolve.toValue := by
  refine .leaf hshape ?_ (Document.resolve_toValue _).symm
  rw [h, Document.toValue]
  exact n.shape_toValue

mutual

theorem alike_resolve : {value : Value} → value.isPlain → Alike value value.resolve.toValue
  | .object entries, h => .object (entriesAlike_resolve h)
  | .array items, _ => by
    refine .array ?_
    rw [Document.resolve_toValueItems]
  | .null, _ | .bool _, _ | .string _, _ => .leaf rfl rfl rfl
  | .integer n, _ => alike_of_number rfl (by rw [resolve])
  | .unsigned n, _ => alike_of_number rfl (by rw [resolve])
  | .float x, _ => by
    cases hx : Number.ofBinary64? x with
    | some n => exact alike_of_number rfl (by rw [resolve, hx]; rfl)
    | none =>
      have hnull : (Value.float x).resolve = .null := by rw [resolve, hx]; rfl
      rw [hnull]
      exact .leaf rfl rfl hnull

theorem entriesAlike_resolve : {entries : List (String × Value)} → havePlain entries →
    EntriesAlike entries (Document.toValueEntries (resolveEntries entries))
  | [], _ => .nil
  | (key, value) :: rest, h => by
    rw [havePlain, Bool.and_eq_true] at h
    exact .cons key (alike_resolve h.1) (entriesAlike_resolve h.2)

end

theorem Alike.foldl_merge {target target' : Value} (h : Alike target target') {values : List Value}
    (hvalues : ∀ value ∈ values, value.isPlain) :
    Alike (values.foldl Value.merge target)
      ((values.map (fun value => value.resolve.toValue)).foldl Value.merge target') := by
  induction values generalizing target target' with
  | nil => exact h
  | cons value rest ih =>
    rw [List.forall_mem_cons] at hvalues
    exact ih (h.merge (alike_resolve hvalues.1)) hvalues.2

/-- Values that are merged can be made into documents and back before. What they are merged into can
be too, if it is plain itself. -/
theorem merge_resolved :
    (∀ a b : Value, a.isPlain → b.isPlain →
      (merge a b).resolve = (merge a.resolve.toValue b.resolve.toValue).resolve) ∧
    (∀ (target : Value) (values : List Value), (∀ value ∈ values, value.isPlain) →
      (values.foldl merge target).resolve =
        ((values.map (fun value => value.resolve.toValue)).foldl merge target).resolve ∧
      (target.isPlain → (values.foldl merge target).resolve =
        ((values.map (fun value => value.resolve.toValue)).foldl merge
          target.resolve.toValue).resolve)) := by
  refine ⟨fun a b ha hb => ((alike_resolve ha).merge (alike_resolve hb)).resolve_eq, ?_⟩
  intro target values hvalues
  exact ⟨((Alike.refl target).foldl_merge hvalues).resolve_eq,
    fun htarget => ((alike_resolve htarget).foldl_merge hvalues).resolve_eq⟩

theorem merge_resolved_variants :
    let nan : Value := .float ⟨false, 0x7FF8000000000000, by decide⟩
    let a : Value := .object [("terms", .array [nan]), ("boost", nan)]
    let b : Value := .object [("boost", .pair "factor" (.unsigned 2)), ("terms", .array [.integer 1])]
    a.isPlain ∧ b.isPlain ∧
    (merge a b).resolve = (merge a.resolve.toValue b.resolve.toValue).resolve ∧
    ([b, a].foldl merge (.deferred a)).resolve =
      ([b.resolve.toValue, a.resolve.toValue].foldl merge (.deferred a)).resolve ∧
    ([b, a].foldl merge a).resolve =
      ([b.resolve.toValue, a.resolve.toValue].foldl merge a.resolve.toValue).resolve := by
  intro nan a b
  have ha : a.isPlain := rfl
  have hb : b.isPlain := rfl
  have hvalues : ∀ value ∈ [b, a], value.isPlain := by
    rw [List.forall_mem_cons, List.forall_mem_singleton]
    exact ⟨hb, ha⟩
  exact ⟨ha, hb, merge_resolved.1 a b ha hb, (merge_resolved.2 (.deferred a) [b, a] hvalues).1,
    (merge_resolved.2 a [b, a] hvalues).2 ha⟩

/-- A deferred object is merged only if it has been resolved before. -/
example :
    (merge (.deferred (.pair "x" .null)) (.pair "y" .null)).resolve = .object [("y", .null)] ∧
      (merge (Value.deferred (.pair "x" .null)).resolve.toValue (.pair "y" .null)).resolve =
        .object [("x", .null), ("y", .null)] := ⟨rfl, rfl⟩

end Value

end SearchQuery
