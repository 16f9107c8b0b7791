import SearchQuery.Proofs.Entries

/-!
# Merging: what a merge leaves, key by key and path by path

At each key a merge depends only on what stands there on the two sides. From this follows what stands
at the end of a path of keys, and that patches can be merged with each other first if no shape gets
in the way.
-/

namespace SearchQuery

open Entries

namespace Value

/-! ## Shapes -/

/-- What a merge looks at. A deferred value is a leaf. -/
inductive Shape where
  | object
  | array
  | leaf
deriving DecidableEq

def shape : Value → Shape
  | .object _ => .object
  | .array _ => .array
  | _ => .leaf

theorem entries_of_shape {value : Value} (h : value.shape ≠ .object) : value.entries = [] := by
  cases value with
  | object => exact absurd rfl h
  | _ => rfl

/-- Only two objects or two arrays are joined. -/
theorem merge_of_shape (old : Value) {incoming : Value}
    (h : old.shape = incoming.shape → incoming.shape = .leaf) : merge old incoming = incoming := by
  cases incoming with
  | object entries =>
    cases old with
    | object target => exact absurd (h rfl) nofun
    | _ => rfl
  | array items =>
    cases old with
    | array target => exact absurd (h rfl) nofun
    | _ => rfl
  | _ => rfl

theorem shape_merge (old incoming : Value) : (merge old incoming).shape = incoming.shape := by
  cases incoming with
  | object entries => cases old <;> rfl
  | array items => cases old <;> rfl
  | _ => rfl

/-! ## One key -/

theorem shape_mergeAt (old : Option Value) (incoming : Value) :
    (mergeAt old incoming).shape = incoming.shape := by
  cases old with
  | none => rfl
  | some old => exact shape_merge old incoming

theorem merge_pair (key : String) (old incoming : Value) :
    merge (.pair key old) (.pair key incoming) = .pair key (merge old incoming) := by
  simp [pair, merge, mergeEntries, update]

theorem mergeEntries_leaf {value : Value} (h : value.shape = .leaf) (key : String)
    (target : Entries Value) : mergeEntries target [(key, value)] = insert key value target := by
  have hreplace : (mergeAt · value) = fun _ => value := by
    funext old
    cases old with
    | none => rfl
    | some old => exact merge_of_shape old (fun _ => h)
  rw [mergeEntries_cons, hreplace, mergeEntries]
  rfl

/-- If something is made of a list unless it is empty, it can be made in two parts. -/
theorem mergeAt?_parts {β : Type} (make : List β → Value) {first second : List β}
    (h : first ≠ [] → second ≠ [] → make (first ++ second) = merge (make first) (make second)) :
    (if first ++ second = [] then none else some (make (first ++ second))) =
      mergeAt? (if first = [] then none else some (make first))
        (if second = [] then none else some (make second)) := by
  by_cases hfirst : first = []
  · by_cases hsecond : second = [] <;> simp [hfirst, hsecond, mergeAt?, mergeAt]
  · by_cases hsecond : second = []
    · simp [hfirst, hsecond, mergeAt?]
    · simp [hfirst, hsecond, mergeAt?, mergeAt, h]

theorem get?_mergeEntries {incoming : Entries Value} (h : Distinct incoming) (key : String)
    (target : Entries Value) :
    get? key (mergeEntries target incoming) = mergeAt? (get? key target) (get? key incoming) := by
  induction incoming generalizing target with
  | nil => rw [mergeEntries, get?_nil, mergeAt?, Option.map_none, Option.none_or]
  | cons entry rest ih =>
    obtain ⟨k, value⟩ := entry
    have hnodup := List.nodup_cons.1 h
    rw [mergeEntries_cons, ih hnodup.2, get?_cons]
    by_cases hk : k = key
    · subst hk
      rw [(get?_eq_none_iff k rest).2 hnodup.1, get?_update_self, if_pos rfl]
      rfl
    · rw [get?_update_of_ne (Ne.symm hk), if_neg hk]

/-- The keys of the target stay where they are, and new ones come after them in their own order. -/
theorem keys_mergeEntries {incoming : Entries Value} (h : Distinct incoming)
    (target : Entries Value) :
    keys (mergeEntries target incoming) =
      keys target ++ (keys incoming).filter (fun key => key ∉ keys target) := by
  induction incoming generalizing target with
  | nil => simp [mergeEntries]
  | cons entry rest ih =>
    obtain ⟨k, value⟩ := entry
    have hnodup := List.nodup_cons.1 h
    rw [mergeEntries_cons, ih hnodup.2, keys_update, keys_cons]
    by_cases hk : k ∈ keys target
    · rw [if_pos hk, List.filter_cons_of_neg (by simpa using hk)]
    · have hrest : (keys rest).filter (fun key => key ∉ keys target ++ [k]) =
          (keys rest).filter (fun key => key ∉ keys target) := by
        refine List.filter_congr (fun key hkey => ?_)
        have hne : key ≠ k := fun heq => hnodup.1 (heq ▸ hkey)
        simp [hne]
      rw [if_neg hk, List.filter_cons_of_pos (by simpa using hk), hrest, List.append_assoc]
      rfl

/-! ## Values in which no key stands twice -/

/-- What stands at a key. Only objects have keys. -/
def child? (key : String) (value : Value) : Option Value := get? key value.entries

mutual

/-- No object in the value has a key twice, however deep it stands in other objects. -/
def hasDistinctKeys : Value → Bool
  | .object entries => decide (keys entries).Nodup && haveDistinctKeys entries
  | _ => true

def haveDistinctKeys : List (String × Value) → Bool
  | [] => true
  | (_, value) :: rest => value.hasDistinctKeys && haveDistinctKeys rest

end

theorem haveDistinctKeys_iff (entries : Entries Value) :
    haveDistinctKeys entries ↔ ∀ e ∈ entries, e.2.hasDistinctKeys := by
  induction entries with
  | nil => simp [haveDistinctKeys]
  | cons entry rest ih =>
    rw [haveDistinctKeys, Bool.and_eq_true, ih, List.forall_mem_cons]

theorem hasDistinctKeys_object_iff (entries : Entries Value) :
    (Value.object entries).hasDistinctKeys ↔
      Distinct entries ∧ ∀ e ∈ entries, e.2.hasDistinctKeys := by
  rw [hasDistinctKeys, Bool.and_eq_true, decide_eq_true_iff, haveDistinctKeys_iff]
  rfl

theorem distinct_of_hasDistinctKeys {entries : Entries Value}
    (h : (Value.object entries).hasDistinctKeys) : Distinct entries :=
  ((hasDistinctKeys_object_iff entries).1 h).1

theorem child?_of_shape {value : Value} (h : value.shape ≠ .object) (key : String) :
    value.child? key = none := by
  rw [child?, entries_of_shape h, get?_nil]

theorem hasDistinctKeys_child? {value inner : Value} {key : String} (h : value.hasDistinctKeys)
    (hchild : value.child? key = some inner) : inner.hasDistinctKeys := by
  cases value with
  | object entries => exact ((hasDistinctKeys_object_iff entries).1 h).2 _ (mem_of_get? hchild)
  | _ => cases hchild

theorem hasDistinctKeys_of_leaf {value : Value} (h : value.shape = .leaf) :
    value.hasDistinctKeys := by
  cases value with
  | object => cases h
  | _ => rfl

theorem hasDistinctKeys_pair {value : Value} (h : value.hasDistinctKeys) (key : String) :
    (Value.pair key value).hasDistinctKeys :=
  (hasDistinctKeys_object_iff _).2 ⟨distinct_singleton key value, by simpa using h⟩

/-- Only an object is merged into the keys of what was there. -/
theorem child?_mergeAt {incoming : Entries Value} (h : Distinct incoming) (old : Option Value)
    (key : String) :
    (mergeAt old (.object incoming)).child? key =
      mergeAt? (old.bind (child? key)) (get? key incoming) := by
  have halone : (Value.object incoming).child? key = mergeAt? none (get? key incoming) := by
    rw [child?, entries, mergeAt?, Option.or_none]
    cases get? key incoming <;> rfl
  cases old with
  | none => exact halone
  | some value =>
    cases value with
    | object target => exact get?_mergeEntries h key target
    | _ => exact halone

theorem child?_mergeAt_of_some {incoming inner : Value} {key : String}
    (h : incoming.hasDistinctKeys) (hinner : incoming.child? key = some inner) (old : Option Value) :
    (mergeAt old incoming).child? key = some (mergeAt (old.bind (child? key)) inner) := by
  cases incoming with
  | object entries =>
    have hget : get? key entries = some inner := hinner
    rw [child?_mergeAt (distinct_of_hasDistinctKeys h), hget]
    rfl
  | _ => cases hinner

theorem child?_mergeAt_of_none {incoming : Value} {key : String} (h : incoming.hasDistinctKeys)
    (hshape : incoming.shape = .object) (hnone : incoming.child? key = none) (old : Option Value) :
    (mergeAt old incoming).child? key = old.bind (child? key) := by
  cases incoming with
  | object entries =>
    have hget : get? key entries = none := hnone
    rw [child?_mergeAt (distinct_of_hasDistinctKeys h), hget]
    rfl
  | _ => cases hshape

/-! ## Paths -/

/-- What a path of keys leads to, through objects in objects. -/
def find? : List String → Value → Option Value
  | [], value => some value
  | key :: path, value => (value.child? key).bind (find? path)

theorem bind_find?_nil (old : Option Value) : old.bind (find? []) = old := by
  cases old <;> rfl

theorem bind_find?_cons (key : String) (path : List String) (old : Option Value) :
    old.bind (find? (key :: path)) = (old.bind (child? key)).bind (find? path) :=
  (Option.bind_assoc old (child? key) (find? path)).symm

/-- The path meets something that is no object before its end. -/
def Blocks (path : List String) (value : Value) : Prop :=
  ∃ front rest, path = front ++ rest ∧ rest ≠ [] ∧
    ∃ inner, value.find? front = some inner ∧ inner.shape ≠ .object

theorem not_blocks_nil (value : Value) : ¬ Blocks [] value := by
  rintro ⟨front, rest, hpath, hrest, -⟩
  exact hrest (List.append_eq_nil_iff.1 hpath.symm).2

theorem blocks_cons {key : String} {path : List String} {value : Value} :
    Blocks (key :: path) value ↔
      value.shape ≠ .object ∨ ∃ inner, value.child? key = some inner ∧ Blocks path inner := by
  constructor
  · rintro ⟨front, rest, hpath, hrest, inner, hfind, hshape⟩
    cases front with
    | nil =>
      obtain rfl := Option.some.inj hfind
      exact Or.inl hshape
    | cons k front =>
      obtain ⟨rfl, rfl⟩ := List.cons.inj hpath
      obtain ⟨next, hnext, hfind⟩ := Option.bind_eq_some_iff.1 hfind
      exact Or.inr ⟨next, hnext, front, rest, rfl, hrest, inner, hfind, hshape⟩
  · rintro (hshape | ⟨next, hnext, front, rest, rfl, hrest, inner, hfind, hshape⟩)
    · exact ⟨[], key :: path, rfl, nofun, value, rfl, hshape⟩
    · refine ⟨key :: front, rest, rfl, hrest, inner, ?_, hshape⟩
      rw [find?, hnext, Option.bind_some, hfind]

/-- What has to stand where the incoming side has a value. Two objects become one, with the keys of
the old one in front, two arrays are put after each other, and anything else is the incoming
value. -/
def Joined : Option Value → Value → Option Value → Prop
  | some (.object target), .object incoming, merged =>
    ∃ entries, merged = some (.object entries) ∧ Distinct entries ∧
      keys entries = keys target ++ (keys incoming).filter (fun key => key ∉ keys target)
  | some (.array items), .array more, merged => merged = some (.array (items ++ more))
  | _, incoming, merged => merged = some incoming

theorem joined_mergeAt {old : Option Value} {incoming : Value}
    (hold : ∀ value ∈ old, value.hasDistinctKeys) (hincoming : incoming.hasDistinctKeys) :
    Joined old incoming (some (mergeAt old incoming)) := by
  cases old with
  | none => rfl
  | some value =>
    cases incoming with
    | object entries =>
      cases value with
      | object target =>
        exact ⟨_, rfl, distinct_mergeEntries (distinct_of_hasDistinctKeys (hold _ rfl)) entries,
          keys_mergeEntries (distinct_of_hasDistinctKeys hincoming) target⟩
      | _ => rfl
    | array more => cases value <;> rfl
    | _ => cases value <;> rfl

section

variable {path : List String} {incoming : Value}

theorem joined_find? {value : Value} {old : Option Value}
    (hold : ∀ value ∈ old, value.hasDistinctKeys) (hincoming : incoming.hasDistinctKeys)
    (h : incoming.find? path = some value) :
    Joined (old.bind (find? path)) value ((mergeAt old incoming).find? path) := by
  induction path generalizing old incoming with
  | nil =>
    obtain rfl := Option.some.inj h
    rw [bind_find?_nil]
    exact joined_mergeAt hold hincoming
  | cons key path ih =>
    obtain ⟨inner, hinner, hvalue⟩ := Option.bind_eq_some_iff.1 h
    rw [find?, child?_mergeAt_of_some hincoming hinner, Option.bind_some, bind_find?_cons]
    refine ih (fun other hother => ?_) (hasDistinctKeys_child? hincoming hinner) hvalue
    obtain ⟨outer, houter, hother⟩ := Option.bind_eq_some_iff.1 hother
    exact hasDistinctKeys_child? (hold outer houter) hother

theorem find?_mergeAt_of_blocks (hincoming : incoming.hasDistinctKeys) (h : Blocks path incoming)
    (old : Option Value) : (mergeAt old incoming).find? path = none := by
  induction path generalizing old incoming with
  | nil => exact absurd h (not_blocks_nil incoming)
  | cons key path ih =>
    rcases blocks_cons.1 h with hshape | ⟨inner, hinner, hblocks⟩
    · rw [find?, child?_of_shape (shape_mergeAt old incoming ▸ hshape)]
      rfl
    · rw [find?, child?_mergeAt_of_some hincoming hinner, Option.bind_some]
      exact ih (hasDistinctKeys_child? hincoming hinner) hblocks _

theorem find?_mergeAt_of_none (hincoming : incoming.hasDistinctKeys)
    (h : incoming.find? path = none) (hblocks : ¬ Blocks path incoming) (old : Option Value) :
    (mergeAt old incoming).find? path = old.bind (find? path) := by
  induction path generalizing old incoming with
  | nil => cases h
  | cons key path ih =>
    rw [blocks_cons, not_or, Decidable.not_not] at hblocks
    rw [find?, bind_find?_cons]
    cases hinner : incoming.child? key with
    | none => rw [child?_mergeAt_of_none hincoming hblocks.1 hinner]
    | some inner =>
      rw [find?, hinner, Option.bind_some] at h
      rw [child?_mergeAt_of_some hincoming hinner, Option.bind_some]
      refine ih (hasDistinctKeys_child? hincoming hinner) h (fun hpath => ?_) _
      exact hblocks.2 ⟨inner, hinner, hpath⟩

end

/-- What stands at a path after a merge. If the incoming side has a value there, it is joined with
the old one. If it has something on the way that is no object, nothing is left there, and otherwise
the old value is. -/
theorem paths_of_merge {target incoming : Entries Value}
    (htarget : hasDistinctKeys (.object target)) (hincoming : hasDistinctKeys (.object incoming))
    (path : List String) :
    let old := Value.object target
    let new := Value.object incoming
    let merged := Value.object (mergeEntries target incoming)
    (∀ value, new.find? path = some value →
      Joined (old.find? path) value (merged.find? path)) ∧
    (new.Blocks path → merged.find? path = none) ∧
    (new.find? path = none → ¬ new.Blocks path → merged.find? path = old.find? path) := by
  have hold : ∀ value ∈ some (Value.object target), value.hasDistinctKeys := by
    intro value hvalue
    obtain rfl := Option.some.inj hvalue
    exact htarget
  exact ⟨fun value => joined_find? hold hincoming,
    fun hblocks => find?_mergeAt_of_blocks hincoming hblocks (some (.object target)),
    fun hnone hblocks => find?_mergeAt_of_none hincoming hnone hblocks (some (.object target))⟩

theorem paths_of_merge_mixed :
    let target : Entries Value :=
      [ ("match", .object [("title", .pair "query" (.string "rust"))]),
        ("terms", .array [.string "a"]),
        ("boost", .pair "factor" (.integer 2)) ]
    let incoming : Entries Value :=
      [ ("terms", .array [.string "b"]),
        ("boost", .deferred (.pair "factor" (.integer 3))),
        ("match", .object [("body", .null), ("title", .pair "slop" (.integer 1))]) ]
    let merged := Value.object (mergeEntries target incoming)
    hasDistinctKeys (.object target) ∧ hasDistinctKeys (.object incoming) ∧
    merged.find? ["terms"] = some (.array [.string "a", .string "b"]) ∧
    merged.find? ["boost", "factor"] = none ∧
    merged.find? ["match", "title", "query"] = some (.string "rust") := by
  intro target incoming merged
  have htarget : hasDistinctKeys (.object target) := by decide
  have hincoming : hasDistinctKeys (.object incoming) := by decide
  have hblocks : Blocks ["boost", "factor"] (.object incoming) :=
    ⟨["boost"], ["factor"], rfl, nofun, .deferred (.pair "factor" (.integer 3)), rfl, nofun⟩
  have hfree : ¬ Blocks ["match", "title", "query"] (.object incoming) := by
    simp [incoming, blocks_cons, not_blocks_nil, child?, entries, get?_cons, pair, shape]
  exact ⟨htarget, hincoming, (paths_of_merge htarget hincoming ["terms"]).1 _ rfl,
    (paths_of_merge htarget hincoming _).2.1 hblocks,
    (paths_of_merge htarget hincoming _).2.2 rfl hfree⟩

/-! ## Merging patches -/

/-- Patches that can be merged with each other before they are merged into something else. -/
inductive Compatible : Value → Value → Prop where
  | objects {first second : Entries Value}
      (common : ∀ key a b, get? key first = some a → get? key second = some b → Compatible a b) :
      Compatible (.object first) (.object second)
  | arrays (items more : List Value) : Compatible (.array items) (.array more)
  | leaves {a b : Value} (ha : a.shape = .leaf) (hb : b.shape = .leaf) : Compatible a b

theorem compatible_of_leaves {first second : Entries Value}
    (hfirst : ∀ e ∈ first, e.2.shape = .leaf) (hsecond : ∀ e ∈ second, e.2.shape = .leaf) :
    Compatible (.object first) (.object second) :=
  .objects (fun _ _ _ ha hb =>
    .leaves (hfirst _ (mem_of_get? ha)) (hsecond _ (mem_of_get? hb)))

theorem Compatible.pair {a b : Value} (h : Compatible a b) (key : String) :
    Compatible (.pair key a) (.pair key b) := by
  refine .objects (fun other x y hx hy => ?_)
  obtain ⟨-, rfl⟩ := Prod.mk.inj (List.mem_singleton.1 (mem_of_get? hx))
  obtain ⟨-, rfl⟩ := Prod.mk.inj (List.mem_singleton.1 (mem_of_get? hy))
  exact h

theorem merge_assoc_leaf (x y : Value) {z : Value} (hz : z.shape = .leaf) :
    merge (merge x y) z = merge x (merge y z) := by
  rw [merge_of_shape y (fun _ => hz), merge_of_shape x (fun _ => hz), merge_of_shape _ (fun _ => hz)]

theorem merge_assoc_array (x : Value) (items more : List Value) :
    merge (merge x (.array items)) (.array more) =
      merge x (merge (.array items) (.array more)) := by
  cases x with
  | array old => simp [merge, List.append_assoc]
  | _ => rfl

section

variable {key : String} {value : Value} {incoming : Entries Value}

theorem update_mergeEntries_of_not_mem (h : key ∉ keys incoming) {target : Entries Value}
    (hmem : key ∈ keys target) (f : Option Value → Value) :
    update key f (mergeEntries target incoming) = mergeEntries (update key f target) incoming := by
  induction incoming generalizing target with
  | nil => rw [mergeEntries, mergeEntries]
  | cons entry rest ih =>
    rw [keys_cons, List.mem_cons, not_or] at h
    rw [mergeEntries_cons, mergeEntries_cons, ih h.2 (mem_keys_update.2 (Or.inr hmem)),
      update_comm h.1 hmem]

/-- A value that comes after the incoming entries can be merged into them first. -/
theorem update_mergeEntries (h : Distinct incoming)
    (hassoc : ∀ inner, get? key incoming = some inner →
      ∀ x, merge (merge x inner) value = merge x (merge inner value)) (target : Entries Value) :
    update key (mergeAt · value) (mergeEntries target incoming) =
      mergeEntries target (update key (mergeAt · value) incoming) := by
  induction incoming generalizing target with
  | nil => rw [update, mergeEntries_cons, mergeEntries, mergeEntries]; rfl
  | cons entry rest ih =>
    obtain ⟨k, inner⟩ := entry
    have hnodup := List.nodup_cons.1 h
    rw [mergeEntries_cons, update]
    by_cases hk : k = key
    · subst hk
      have hmem : k ∈ keys (update k (mergeAt · inner) target) := mem_keys_update.2 (Or.inl rfl)
      have hboth : (fun old => mergeAt (some (mergeAt old inner)) value) =
          (mergeAt · (mergeAt (some inner) value)) := by
        funext old
        cases old with
        | none => rfl
        | some x => exact hassoc inner (by rw [get?_cons, if_pos rfl]) x
      rw [if_pos rfl, mergeEntries_cons, update_mergeEntries_of_not_mem hnodup.1 hmem,
        update_update, hboth]
    · rw [if_neg hk, mergeEntries_cons]
      exact ih hnodup.2 (fun other hother => hassoc other (by rwa [get?_cons, if_neg hk])) _

end

/-- Two merges into one object, if at each key on its own the order of merging is free. -/
theorem mergeEntries_assoc {first second : Entries Value} (hfirst : Distinct first)
    (hsecond : Distinct second)
    (hcommon : ∀ key b c, get? key first = some b → get? key second = some c →
      ∀ a, merge (merge a b) c = merge a (merge b c)) (target : Entries Value) :
    mergeEntries (mergeEntries target first) second =
      mergeEntries target (mergeEntries first second) := by
  induction second generalizing first with
  | nil => rw [mergeEntries, mergeEntries]
  | cons entry rest ih =>
    obtain ⟨key, value⟩ := entry
    have hnodup := List.nodup_cons.1 hsecond
    have hvalue : get? key ((key, value) :: rest) = some value := by rw [get?_cons, if_pos rfl]
    rw [mergeEntries_cons, mergeEntries_cons,
      update_mergeEntries hfirst (fun inner hinner => hcommon key inner value hinner hvalue)]
    refine ih (distinct_update hfirst) hnodup.2 (fun k b c hb hc => ?_)
    have hne : k ≠ key := by
      rintro rfl
      exact hnodup.1 (mem_keys (mem_of_get? hc))
    rw [get?_update_of_ne hne] at hb
    exact hcommon k b c hb (by rwa [get?_cons, if_neg (Ne.symm hne)])

/-- What the patches are merged into can be anything. -/
theorem merge_assoc {y z : Value} (hpatches : Compatible y z) (hy : y.hasDistinctKeys)
    (hz : z.hasDistinctKeys) (x : Value) : merge (merge x y) z = merge x (merge y z) := by
  -- On the patches, because what they share has to be compatible at every depth.
  induction hpatches generalizing x with
  | leaves _ hleaf => exact merge_assoc_leaf _ _ hleaf
  | arrays items more => exact merge_assoc_array x items more
  | objects common ih =>
    cases x with
    | object target =>
      refine congrArg Value.object (mergeEntries_assoc (distinct_of_hasDistinctKeys hy)
        (distinct_of_hasDistinctKeys hz) (fun key b c hb hc => ?_) target)
      exact ih key b c hb hc (hasDistinctKeys_child? hy hb) (hasDistinctKeys_child? hz hc)
    | _ => rfl

theorem mergeAt?_assoc {y z : Option Value} (hpatches : ∀ a ∈ y, ∀ b ∈ z, Compatible a b)
    (hy : ∀ a ∈ y, a.hasDistinctKeys) (hz : ∀ b ∈ z, b.hasDistinctKeys) (x : Option Value) :
    mergeAt? (mergeAt? x y) z = mergeAt? x (mergeAt? y z) := by
  cases z with
  | none => rfl
  | some c =>
    cases y with
    | none => rfl
    | some b =>
      cases x with
      | none => rfl
      | some a => exact congrArg some (merge_assoc (hpatches b rfl c rfl) (hy b rfl) (hz c rfl) a)

/-- Merging two patches one after the other is merging what they make together, if they are
compatible. The empty object is a patch that changes nothing, and nothing is lost in merging into
it. -/
theorem patches_combine :
    (∀ x y z : Value, x.hasDistinctKeys → y.hasDistinctKeys → z.hasDistinctKeys → Compatible y z →
      merge (merge x y) z = merge x (merge y z)) ∧
    (∀ entries : Entries Value, hasDistinctKeys (.object entries) →
      mergeEntries entries [] = entries ∧ mergeEntries [] entries = entries) := by
  refine ⟨fun x y z _ hy hz hpatches => merge_assoc hpatches hy hz x, fun entries h => ?_⟩
  exact ⟨by rw [mergeEntries], mergeEntries_nil_left (distinct_of_hasDistinctKeys h)⟩

theorem patches_combine_nested :
    let x : Value := .object [("terms", .array [.null]), ("title", .pair "query" (.string "rust"))]
    let y : Value := .object [("title", .string "go"), ("terms", .array [.bool true])]
    let z : Value := .object [("terms", .array []), ("title", .deferred (.object []))]
    x.hasDistinctKeys ∧ y.hasDistinctKeys ∧ z.hasDistinctKeys ∧ Compatible y z ∧
    merge (merge x y) z = merge x (merge y z) ∧
    mergeEntries [] x.entries = x.entries := by
  intro x y z
  have hx : x.hasDistinctKeys := by decide
  have hy : y.hasDistinctKeys := by decide
  have hz : z.hasDistinctKeys := by decide
  have hpatches : Compatible y z := by
    refine .objects (fun key a b ha hb => ?_)
    have hmem := mem_of_get? ha
    simp only [List.mem_cons, Prod.mk.injEq, List.not_mem_nil, or_false] at hmem
    rcases hmem with ⟨rfl, rfl⟩ | ⟨rfl, rfl⟩
    · obtain rfl : .deferred (.object []) = b := Option.some.inj hb
      exact .leaves rfl rfl
    · obtain rfl : .array [] = b := Option.some.inj hb
      exact .arrays _ _
  exact ⟨hx, hy, hz, hpatches, patches_combine.1 x y z hx hy hz hpatches,
    (patches_combine.2 x.entries hx).2⟩

/-- A leaf between two arrays hides the first of them only if it is merged with it first. -/
example :
    merge (merge (.array [.null]) .null) (.array []) = .array [] ∧
      merge (.array [.null]) (merge .null (.array [])) = .array [.null] := ⟨rfl, rfl⟩

end Value

end SearchQuery
