import SearchQuery.Value.Merge
import SearchQuery.Value.Resolve

/-! # Entries under change: what an update, a merge and a resolution keep -/

namespace SearchQuery

namespace Entries

variable {α β : Type}

@[simp] theorem keys_nil : keys ([] : Entries α) = [] := rfl

@[simp] theorem keys_cons (entry : String × α) (rest : Entries α) :
    keys (entry :: rest) = entry.1 :: keys rest := rfl

@[simp] theorem keys_append (first second : Entries α) :
    keys (first ++ second) = keys first ++ keys second := List.map_append

@[simp] theorem get?_nil (key : String) : get? key ([] : Entries α) = none := rfl

theorem get?_cons (key k : String) (a : α) (rest : Entries α) :
    get? key ((k, a) :: rest) = if k = key then some a else get? key rest := rfl

instance (entries : Entries α) : Decidable (Distinct entries) :=
  inferInstanceAs (Decidable (keys entries).Nodup)

theorem distinct_nil : Distinct ([] : Entries α) := List.nodup_nil

theorem distinct_singleton (key : String) (a : α) : Distinct [(key, a)] := by
  simp [Distinct]

theorem mem_keys {key : String} {a : α} {entries : Entries α} (h : (key, a) ∈ entries) :
    key ∈ keys entries := List.mem_map_of_mem h

theorem mem_of_get? {key : String} {a : α} {entries : Entries α} (h : get? key entries = some a) :
    (key, a) ∈ entries := by
  induction entries with
  | nil => simp at h
  | cons entry rest ih =>
    obtain ⟨k, b⟩ := entry
    rw [get?_cons] at h
    split at h
    · rename_i hk
      simp only [Option.some.injEq] at h
      rw [hk, h]
      exact List.mem_cons_self
    · exact List.mem_cons_of_mem _ (ih h)

theorem get?_of_mem {key : String} {a : α} {entries : Entries α} (hdistinct : Distinct entries)
    (h : (key, a) ∈ entries) : get? key entries = some a := by
  induction entries with
  | nil => simp at h
  | cons entry rest ih =>
    obtain ⟨k, b⟩ := entry
    have hnodup := List.nodup_cons.1 hdistinct
    rw [get?_cons]
    rcases List.mem_cons.1 h with heq | hmem
    · obtain ⟨rfl, rfl⟩ := Prod.mk.inj heq
      rw [if_pos rfl]
    · have hne : k ≠ key := fun hk => hnodup.1 (hk ▸ mem_keys hmem)
      rw [if_neg hne]
      exact ih hnodup.2 hmem

theorem get?_append_of_not_mem {key : String} {first : Entries α} (h : key ∉ keys first)
    (second : Entries α) : get? key (first ++ second) = get? key second := by
  induction first with
  | nil => rfl
  | cons entry rest ih =>
    rw [keys_cons, List.mem_cons, not_or] at h
    rw [List.cons_append, get?_cons, if_neg (Ne.symm h.1), ih h.2]

theorem get?_append (key : String) (first second : Entries α) :
    get? key (first ++ second) = (get? key first).or (get? key second) := by
  induction first with
  | nil => rfl
  | cons entry rest ih =>
    obtain ⟨k, a⟩ := entry
    rw [List.cons_append, get?_cons, get?_cons, ih]
    split <;> rfl

/-! ## Updates -/

theorem update_ne_nil (key : String) (f : Option α → α) (entries : Entries α) :
    update key f entries ≠ [] := by
  cases entries with
  | nil => simp [update]
  | cons entry rest =>
    unfold update
    split <;> simp

theorem update_of_not_mem {key : String} {entries : Entries α} (h : key ∉ keys entries)
    (f : Option α → α) : update key f entries = entries ++ [(key, f none)] := by
  induction entries with
  | nil => rfl
  | cons entry rest ih =>
    obtain ⟨k, a⟩ := entry
    simp only [keys_cons, List.mem_cons, not_or] at h
    rw [update, if_neg (Ne.symm h.1), ih h.2, List.cons_append]

theorem update_of_mem {key : String} {entries : Entries α} (hdistinct : Distinct entries)
    (h : key ∈ keys entries) (f : Option α → α) :
    update key f entries =
      entries.map (fun e => if e.1 = key then (key, f (some e.2)) else e) := by
  induction entries with
  | nil => cases h
  | cons entry rest ih =>
    obtain ⟨k, a⟩ := entry
    have hnodup := List.nodup_cons.1 hdistinct
    rw [update, List.map_cons]
    by_cases hk : k = key
    · subst hk
      have hkeep : ∀ e ∈ rest, (if e.1 = k then (k, f (some e.2)) else e) = id e := by
        intro e he
        have hkey : e.1 ∈ keys rest := List.mem_map_of_mem he
        have hne : ¬ e.1 = k := fun heq => hnodup.1 (heq ▸ hkey)
        rw [if_neg hne, id]
      rw [if_pos rfl, if_pos rfl, List.map_congr_left hkeep, List.map_id]
    · have hmem := (List.mem_cons.1 h).resolve_left (Ne.symm hk)
      rw [if_neg hk, if_neg hk, ih hnodup.2 hmem]

theorem mem_keys_update {key other : String} {f : Option α → α} {entries : Entries α} :
    other ∈ keys (update key f entries) ↔ other = key ∨ other ∈ keys entries := by
  rw [keys_update]
  split
  · rename_i hk
    constructor
    · exact Or.inr
    · rintro (rfl | h)
      · exact hk
      · exact h
  · simp [or_comm]

theorem keys_prefix_update (key : String) (f : Option α → α) (entries : Entries α) :
    keys entries <+: keys (update key f entries) := by
  rw [keys_update]
  split
  · exact List.prefix_refl _
  · exact List.prefix_append _ _

theorem keys_insert_of_get? {key : String} {entries : Entries α} (h : get? key entries = none)
    (a : α) : keys (insert key a entries) = keys entries ++ [key] :=
  (keys_update key _ entries).trans (if_neg ((get?_eq_none_iff key entries).1 h))

/-- `a` stands at `key`: in the place of what was there first, and last if there was nothing. -/
def Placed (key : String) (a : α) (given placed : Entries α) : Prop :=
  (∃ before old after, given = before ++ (key, old) :: after ∧ key ∉ keys before ∧
    placed = before ++ (key, a) :: after) ∨
  (key ∉ keys given ∧ placed = given ++ [(key, a)])

theorem placed_insert (key : String) (a : α) (entries : Entries α) :
    Placed key a entries (insert key a entries) := by
  unfold insert
  by_cases hmem : key ∈ keys entries
  · refine Or.inl ?_
    induction entries with
    | nil => cases hmem
    | cons entry rest ih =>
      obtain ⟨k, old⟩ := entry
      by_cases hk : k = key
      · subst hk
        exact ⟨[], old, rest, rfl, by simp, if_pos rfl⟩
      · obtain ⟨before, found, after, rfl, hbefore, hupdate⟩ :=
          ih ((List.mem_cons.1 hmem).resolve_left (Ne.symm hk))
        refine ⟨(k, old) :: before, found, after, rfl, ?_, ?_⟩
        · rw [keys_cons, List.mem_cons, not_or]
          exact ⟨Ne.symm hk, hbefore⟩
        · rw [update, if_neg hk, hupdate]
          rfl
  · exact Or.inr ⟨hmem, update_of_not_mem hmem _⟩

theorem forall_update {P : String → α → Prop} {key : String} {f : Option α → α}
    {entries : Entries α} (h : ∀ e ∈ entries, P e.1 e.2) (hnew : P key (f none))
    (hold : ∀ a, P key a → P key (f (some a))) : ∀ e ∈ update key f entries, P e.1 e.2 := by
  induction entries with
  | nil =>
    intro e he
    simp only [update, List.mem_singleton] at he
    rw [he]
    exact hnew
  | cons entry rest ih =>
    obtain ⟨k, a⟩ := entry
    rw [List.forall_mem_cons] at h
    unfold update
    split
    · rename_i hk
      subst hk
      exact List.forall_mem_cons.mpr ⟨hold a h.1, h.2⟩
    · exact List.forall_mem_cons.mpr ⟨h.1, ih h.2⟩

theorem update_update (key : String) (f g : Option α → α) (entries : Entries α) :
    update key f (update key g entries) = update key (fun old => f (some (g old))) entries := by
  induction entries with
  | nil => simp [update]
  | cons entry rest ih =>
    obtain ⟨k, a⟩ := entry
    by_cases hk : k = key <;> simp [update, hk, ih]

/-- At most one of the two adds an entry, so that the order of new entries is no matter. -/
theorem update_comm {key other : String} (h : key ≠ other) {entries : Entries α}
    (hmem : key ∈ keys entries) (f g : Option α → α) :
    update key f (update other g entries) = update other g (update key f entries) := by
  induction entries with
  | nil => cases hmem
  | cons entry rest ih =>
    obtain ⟨k, a⟩ := entry
    by_cases hk : k = key
    · simp [update, hk, h]
    · by_cases hother : k = other
      · simp [update, hother, Ne.symm h]
      · have hrest := (List.mem_cons.1 hmem).resolve_left (Ne.symm hk)
        simp [update, hk, hother, ih hrest]

theorem mem_keys_erase {key other : String} {entries : Entries α} :
    other ∈ keys (erase key entries) ↔ other ≠ key ∧ other ∈ keys entries := by
  unfold keys erase
  simp only [List.mem_map, List.mem_filter, decide_eq_true_eq]
  constructor
  · rintro ⟨e, ⟨he, hne⟩, rfl⟩
    exact ⟨hne, e, he, rfl⟩
  · rintro ⟨hne, e, he, rfl⟩
    exact ⟨e, ⟨he, hne⟩, rfl⟩

theorem get?_erase_of_ne {key other : String} (h : other ≠ key) (entries : Entries α) :
    get? other (erase key entries) = get? other entries := by
  induction entries with
  | nil => rfl
  | cons entry rest ih =>
    obtain ⟨k, a⟩ := entry
    by_cases hk : k = key
    · have hne : k ≠ other := fun heq => h (heq.symm.trans hk)
      rw [get?_cons, if_neg hne, ← ih, erase, List.filter_cons_of_neg (by simpa using hk)]
      rfl
    · rw [get?_cons, ← ih, erase, List.filter_cons_of_pos (by simpa using hk), get?_cons]
      rfl

theorem distinct_ofList (entries : List (String × α)) : Distinct (ofList entries) :=
  distinct_insertAll distinct_nil entries

theorem forall_insertAll {P : String → α → Prop} {entries incoming : Entries α}
    (h : ∀ e ∈ entries, P e.1 e.2) (hin : ∀ e ∈ incoming, P e.1 e.2) :
    ∀ e ∈ insertAll entries incoming, P e.1 e.2 := by
  induction incoming generalizing entries with
  | nil => exact h
  | cons entry rest ih =>
    rw [List.forall_mem_cons] at hin
    exact ih (forall_update h hin.1 (fun _ _ => hin.1)) hin.2

/-! ## Entries in any order -/

section

variable {first second third : Entries α}

/-- Look-up does not tell the two apart. -/
def Agree (first second : Entries α) : Prop := ∀ key, get? key first = get? key second

theorem Agree.trans (h : Agree first second) (h' : Agree second third) : Agree first third :=
  fun key => (h key).trans (h' key)

theorem Agree.update (h : Agree first second) (key : String) (f : Option α → α) :
    Agree (update key f first) (update key f second) := by
  intro other
  by_cases hkey : other = key
  · rw [hkey, get?_update_self, get?_update_self, h key]
  · rw [get?_update_of_ne hkey, get?_update_of_ne hkey, h other]

theorem nodup_of_distinct (h : Distinct first) : first.Nodup :=
  List.Pairwise.of_map Prod.fst (fun _ _ hne heq => hne (congrArg Prod.fst heq)) h

theorem Agree.perm (h : Agree first second) (hfirst : Distinct first) (hsecond : Distinct second) :
    first.Perm second := by
  refine (List.perm_ext_iff_of_nodup (nodup_of_distinct hfirst) (nodup_of_distinct hsecond)).2 ?_
  rintro ⟨key, a⟩
  constructor
  · exact fun hmem => mem_of_get? ((h key).symm.trans (get?_of_mem hfirst hmem))
  · exact fun hmem => mem_of_get? ((h key).trans (get?_of_mem hsecond hmem))

end

/-! ## Entries gathered from calls -/

theorem eraseDups_append_singleton {κ : Type} [BEq κ] [LawfulBEq κ] (kinds : List κ) (kind : κ) :
    (kinds ++ [kind]).eraseDups =
      if kind ∈ kinds then kinds.eraseDups else kinds.eraseDups ++ [kind] := by
  rw [List.eraseDups_append]
  by_cases h : kind ∈ kinds <;> simp [List.removeAll, h, List.eraseDups_cons]

section Gathered

variable {κ γ : Type} [DecidableEq κ]

/-- What the calls give to one kind, in the order of the calls. -/
def givenTo (kind : κ) (calls : List (κ × γ)) : List γ :=
  calls.filterMap (fun call => if call.1 = kind then some call.2 else none)

/-- One entry for each kind that is called, in the order of the first calls. -/
def gathered (key : κ → String) (content : κ → List γ → α) (calls : List (κ × γ)) : Entries α :=
  (calls.map Prod.fst).eraseDups.map (fun kind => (key kind, content kind (givenTo kind calls)))

theorem givenTo_append_self (kind : κ) (a : γ) (calls : List (κ × γ)) :
    givenTo kind (calls ++ [(kind, a)]) = givenTo kind calls ++ [a] := by
  simp [givenTo, List.filterMap_append]

theorem givenTo_append_of_ne {kind other : κ} (h : other ≠ kind) (a : γ) (calls : List (κ × γ)) :
    givenTo other (calls ++ [(kind, a)]) = givenTo other calls := by
  simp [givenTo, List.filterMap_append, Ne.symm h]

theorem givenTo_eq_nil_iff {kind : κ} {calls : List (κ × γ)} :
    givenTo kind calls = [] ↔ kind ∉ calls.map Prod.fst := by
  constructor
  · intro h hmem
    obtain ⟨call, hcall, rfl⟩ := List.mem_map.1 hmem
    have hnone := List.filterMap_eq_nil_iff.1 h call hcall
    rw [if_pos rfl] at hnone
    cases hnone
  · refine fun h => List.filterMap_eq_nil_iff.2 (fun call hcall => if_neg (fun heq => h ?_))
    exact heq ▸ List.mem_map_of_mem hcall

theorem keys_gathered (key : κ → String) (content : κ → List γ → α) (calls : List (κ × γ)) :
    keys (gathered key content calls) = (calls.map Prod.fst).eraseDups.map key := by
  simp [keys, gathered, Function.comp_def]

theorem nodup_eraseDups : (kinds : List κ) → kinds.eraseDups.Nodup
  | [] => by simp
  | kind :: rest => by
    rw [List.eraseDups_cons]
    exact List.nodup_cons.2 ⟨by simp, nodup_eraseDups (rest.filter (fun other => !other == kind))⟩
termination_by kinds => kinds.length
decreasing_by exact Nat.lt_succ_of_le (List.length_filter_le _ rest)

variable {key : κ → String} (hinj : ∀ {a b}, key a = key b → a = b)

include hinj

theorem distinct_gathered (content : κ → List γ → α) (calls : List (κ × γ)) :
    Distinct (gathered key content calls) := by
  unfold Distinct
  rw [keys_gathered]
  exact List.Pairwise.map key (fun a b h heq => h (hinj heq)) (nodup_eraseDups _)

theorem mem_keys_gathered {content : κ → List γ → α} {kind : κ} {calls : List (κ × γ)} :
    key kind ∈ keys (gathered key content calls) ↔ kind ∈ calls.map Prod.fst := by
  rw [keys_gathered]
  constructor
  · intro hkey
    obtain ⟨other, hother, heq⟩ := List.mem_map.1 hkey
    exact hinj heq ▸ List.mem_eraseDups.1 hother
  · exact fun hmem => List.mem_map_of_mem (List.mem_eraseDups.2 hmem)

/-- What the calls of one kind amount to stands under its key, if there are any. -/
theorem get?_gathered (content : κ → List γ → α) (kind : κ) (calls : List (κ × γ)) :
    get? (key kind) (gathered key content calls) =
      if givenTo kind calls = [] then none else some (content kind (givenTo kind calls)) := by
  split
  · rename_i hnone
    rw [get?_eq_none_iff, mem_keys_gathered hinj]
    exact givenTo_eq_nil_iff.1 hnone
  · rename_i hsome
    rw [givenTo_eq_nil_iff, Decidable.not_not] at hsome
    exact get?_of_mem (distinct_gathered hinj content calls)
      (List.mem_map_of_mem (List.mem_eraseDups.2 hsome))

/-- One call more is an update, at the end if it is the first of its kind. -/
theorem gathered_append {content : κ → List γ → α} {kind : κ} {a : γ} {f : Option α → α}
    (hfirst : f none = content kind [a])
    (hmore : ∀ given, f (some (content kind given)) = content kind (given ++ [a]))
    (calls : List (κ × γ)) :
    gathered key content (calls ++ [(kind, a)]) =
      update (key kind) f (gathered key content calls) := by
  have hothers : ∀ other, other ≠ kind →
      content other (givenTo other (calls ++ [(kind, a)])) = content other (givenTo other calls) :=
    fun other hother => by rw [givenTo_append_of_ne hother]
  by_cases hmem : kind ∈ calls.map Prod.fst
  · have hkey : key kind ∈ keys (gathered key content calls) := (mem_keys_gathered hinj).2 hmem
    rw [update_of_mem (distinct_gathered hinj content calls) hkey, gathered, gathered,
      List.map_append, List.map_singleton, eraseDups_append_singleton, if_pos hmem, List.map_map]
    refine List.map_congr_left (fun other _ => ?_)
    by_cases hother : other = kind
    · subst hother
      simp [givenTo_append_self, hmore]
    · have hne : key other ≠ key kind := fun heq => hother (hinj heq)
      simp [hothers other hother, hne]
  · have hkey : key kind ∉ keys (gathered key content calls) :=
      fun hkey => hmem ((mem_keys_gathered hinj).1 hkey)
    rw [update_of_not_mem hkey, gathered, gathered, List.map_append, List.map_singleton,
      eraseDups_append_singleton, if_neg hmem, List.map_append, List.map_singleton,
      givenTo_append_self, givenTo_eq_nil_iff.2 hmem, List.nil_append, hfirst]
    congr 1
    refine List.map_congr_left (fun other hother => ?_)
    rw [hothers other (fun heq => hmem (heq ▸ List.mem_eraseDups.1 hother))]

end Gathered

/-! ## Entries of a list -/

-- Each item is inserted after those before it, so the inductions take items off the end.

theorem ofList_append_singleton (items : List (String × α)) (key : String) (a : α) :
    ofList (items ++ [(key, a)]) = insert key a (ofList items) := List.foldl_append

/-- The first occurrence of a key gives its place. -/
theorem keys_ofList (items : List (String × α)) :
    keys (ofList items) = (items.map Prod.fst).eraseDups := by
  rw [← List.reverse_reverse items]
  induction items.reverse with
  | nil => rfl
  | cons entry rest ih =>
    have hmem : entry.1 ∈ keys (ofList rest.reverse) ↔ entry.1 ∈ rest.reverse.map Prod.fst := by
      rw [ih, List.mem_eraseDups]
    rw [List.reverse_cons, ofList_append_singleton, insert, keys_update, List.map_append,
      List.map_singleton, eraseDups_append_singleton, ← ih]
    simp only [hmem]

/-- The last occurrence of a key gives its value. -/
theorem get?_ofList (key : String) (items : List (String × α)) :
    get? key (ofList items) = (givenTo key items).getLast? := by
  rw [← List.reverse_reverse items]
  induction items.reverse with
  | nil => rfl
  | cons entry rest ih =>
    obtain ⟨k, a⟩ := entry
    rw [List.reverse_cons, ofList_append_singleton, insert]
    by_cases h : key = k
    · subst h
      rw [get?_update_self, givenTo_append_self, List.getLast?_concat]
    · rw [get?_update_of_ne h, givenTo_append_of_ne h, ih]

theorem insert_of_get? {key : String} {a : α} {entries : Entries α}
    (h : get? key entries = some a) : insert key a entries = entries := by
  unfold insert
  induction entries with
  | nil => cases h
  | cons entry rest ih =>
    obtain ⟨k, b⟩ := entry
    rw [get?_cons] at h
    rw [update]
    by_cases hk : k = key
    · rw [if_pos hk] at h
      rw [if_pos hk, Option.some.inj h]
    · rw [if_neg hk] at h
      rw [if_neg hk, ih h]

/-- If no two kinds share a key, nothing is lost but repetitions. -/
theorem ofList_map {κ : Type} [BEq κ] [LawfulBEq κ] {key : κ → String} (content : κ → α)
    {kinds : List κ} (hinj : ∀ a ∈ kinds, ∀ b ∈ kinds, key a = key b → a = b) :
    ofList (kinds.map (fun kind => (key kind, content kind))) =
      kinds.eraseDups.map (fun kind => (key kind, content kind)) := by
  rw [← List.reverse_reverse kinds] at hinj ⊢
  revert hinj
  induction kinds.reverse with
  | nil => exact fun _ => rfl
  | cons kind rest ih =>
    intro hinj
    rw [List.reverse_cons] at hinj ⊢
    have hrest := ih (fun a ha b hb =>
      hinj a (List.mem_append_left _ ha) b (List.mem_append_left _ hb))
    rw [List.map_append, List.map_singleton, ofList_append_singleton, hrest,
      eraseDups_append_singleton]
    split
    · rename_i hmem
      refine insert_of_get? (get?_of_mem ?_ (List.mem_map_of_mem (List.mem_eraseDups.2 hmem)))
      rw [← hrest]
      exact distinct_ofList _
    · rename_i hmem
      rw [List.map_append]
      refine update_of_not_mem (fun hkey => hmem ?_) _
      obtain ⟨entry, hentry, heq⟩ := List.mem_map.1 hkey
      obtain ⟨other, hother, rfl⟩ := List.mem_map.1 hentry
      have hknown := List.mem_eraseDups.1 hother
      have hsame := hinj other (List.mem_append_left _ hknown) kind (by simp) heq
      exact hsame ▸ hknown

/-! ## Entries of known kinds -/

/-- No key stands twice, and each entry stands under the key of a kind that it fits. -/
def OfKinds {κ : Type} (key : κ → String) (Fits : κ → α → Prop) (entries : Entries α) : Prop :=
  Distinct entries ∧ ∀ e ∈ entries, ∃ kind, e.1 = key kind ∧ Fits kind e.2

section Kinds

variable {κ : Type} {key : κ → String} {Fits : κ → α → Prop}

theorem ofKinds_nil : OfKinds key Fits [] := ⟨distinct_nil, by simp⟩

theorem OfKinds.fits (hinj : ∀ {a b}, key a = key b → a = b) {entries : Entries α}
    (h : OfKinds key Fits entries) (kind : κ) {a : α} (ha : get? (key kind) entries = some a) :
    Fits kind a := by
  obtain ⟨other, hkey, hfits⟩ := h.2 _ (mem_of_get? ha)
  rwa [hinj hkey]

theorem OfKinds.update (hinj : ∀ {a b}, key a = key b → a = b) {entries : Entries α}
    (h : OfKinds key Fits entries) (kind : κ) {f : Option α → α}
    (hf : ∀ old, (∀ a ∈ old, Fits kind a) → Fits kind (f old)) :
    OfKinds key Fits (update (key kind) f entries) := by
  refine ⟨distinct_update h.1, ?_⟩
  apply forall_update (P := fun k a => ∃ kind, k = key kind ∧ Fits kind a) h.2
  · exact ⟨kind, rfl, hf none (by simp)⟩
  · rintro a ⟨other, hkey, ha⟩
    rw [← hinj hkey] at ha
    exact ⟨kind, rfl, hf (some a) (by simpa using ha)⟩

end Kinds

end Entries

/-! ## Merges -/

namespace Value

open Entries

/-- What the incoming value becomes at its key. A new key takes it as it is. -/
def mergeAt (old : Option Value) (incoming : Value) : Value :=
  old.elim incoming (merge · incoming)

/-- What two sides make together if either may be missing. -/
def mergeAt? (old incoming : Option Value) : Option Value := (incoming.map (mergeAt old)).or old

theorem mergeEntries_cons (target : Entries Value) (key : String) (incoming : Value)
    (rest : Entries Value) :
    mergeEntries target ((key, incoming) :: rest) =
      mergeEntries (update key (mergeAt · incoming) target) rest := by
  rw [mergeEntries]
  congr 2
  funext old
  cases old <;> rfl

theorem distinct_mergeEntries {target : Entries Value} (h : Distinct target)
    (incoming : Entries Value) : Distinct (mergeEntries target incoming) := by
  induction incoming generalizing target with
  | nil => exact h
  | cons entry rest ih =>
    rw [mergeEntries_cons]
    exact ih (distinct_update h)

theorem mem_keys_mergeEntries {other : String} {target incoming : Entries Value} :
    other ∈ keys (mergeEntries target incoming) ↔ other ∈ keys target ∨ other ∈ keys incoming := by
  induction incoming generalizing target with
  | nil => simp [mergeEntries]
  | cons entry rest ih =>
    rw [mergeEntries_cons, ih, mem_keys_update, keys_cons, List.mem_cons, or_assoc, or_left_comm]

theorem keys_prefix_mergeEntries (target incoming : Entries Value) :
    keys target <+: keys (mergeEntries target incoming) := by
  induction incoming generalizing target with
  | nil => simp [mergeEntries]
  | cons entry rest ih =>
    rw [mergeEntries_cons]
    exact (keys_prefix_update _ _ target).trans (ih _)

theorem get?_mergeEntries_of_not_mem {other : String} {incoming : Entries Value}
    (h : other ∉ keys incoming) (target : Entries Value) :
    get? other (mergeEntries target incoming) = get? other target := by
  induction incoming generalizing target with
  | nil => rw [mergeEntries]
  | cons entry rest ih =>
    rw [keys_cons, List.mem_cons, not_or] at h
    rw [mergeEntries_cons, ih h.2, get?_update_of_ne h.1]

theorem forall_mergeEntries {P : String → Value → Prop} {target incoming : Entries Value}
    (h : ∀ e ∈ target, P e.1 e.2) (hin : ∀ e ∈ incoming, P e.1 e.2)
    (hmerge : ∀ e ∈ incoming, ∀ old, P e.1 old → P e.1 (merge old e.2)) :
    ∀ e ∈ mergeEntries target incoming, P e.1 e.2 := by
  induction incoming generalizing target with
  | nil => rwa [mergeEntries]
  | cons entry rest ih =>
    rw [List.forall_mem_cons] at hin hmerge
    rw [mergeEntries_cons]
    exact ih (forall_update h hin.1 hmerge.1) hin.2 hmerge.2

theorem OfKinds.merge {κ : Type} {key : κ → String} {Fits : κ → Value → Prop}
    (hinj : ∀ {a b}, key a = key b → a = b) {target incoming : Entries Value}
    (h : OfKinds key Fits target) (hin : OfKinds key Fits incoming)
    (hmerge : ∀ e ∈ incoming, ∀ kind old, e.1 = key kind → Fits kind old → Fits kind e.2 →
      Fits kind (merge old e.2)) :
    OfKinds key Fits (mergeEntries target incoming) := by
  refine ⟨distinct_mergeEntries h.1 incoming, ?_⟩
  apply forall_mergeEntries (P := fun k v => ∃ kind, k = key kind ∧ Fits kind v) h.2 hin.2
  rintro e he old ⟨kind, hkey, hold⟩
  obtain ⟨other, hother, hfits⟩ := hin.2 e he
  rw [hinj (hother.symm.trans hkey)] at hfits
  exact ⟨kind, hkey, hmerge e he kind old hkey hold hfits⟩

theorem mergeEntries_ne_nil {target : Entries Value} (h : target ≠ []) (incoming : Entries Value) :
    mergeEntries target incoming ≠ [] := by
  induction incoming generalizing target with
  | nil => rwa [mergeEntries]
  | cons entry rest ih =>
    rw [mergeEntries_cons]
    exact ih (update_ne_nil _ _ _)

theorem mergeEntries_of_distinct {target incoming : Entries Value}
    (h : Distinct (target ++ incoming)) : mergeEntries target incoming = target ++ incoming := by
  induction incoming generalizing target with
  | nil => rw [mergeEntries, List.append_nil]
  | cons entry rest ih =>
    obtain ⟨key, value⟩ := entry
    have hkey : key ∉ keys target := by
      intro hmem
      unfold Distinct at h
      rw [keys_append] at h
      exact (List.nodup_append.1 h).2.2 key hmem key (by simp) rfl
    rw [mergeEntries_cons, update_of_not_mem hkey]
    have happend : target ++ [(key, value)] ++ rest = target ++ (key, value) :: rest := by simp
    rw [← happend] at h ⊢
    exact ih h

theorem mergeEntries_nil_left {incoming : Entries Value} (h : Distinct incoming) :
    mergeEntries [] incoming = incoming := by
  have hmerge : mergeEntries [] incoming = [] ++ incoming := mergeEntries_of_distinct h
  exact hmerge

/-! ## Resolution -/

theorem resolveItems_eq_map (items : List Value) : resolveItems items = items.map resolve := by
  induction items with
  | nil => rfl
  | cons item rest ih => rw [resolveItems, ih, List.map_cons]

theorem resolveEntries_eq_map (entries : Entries Value) :
    resolveEntries entries = entries.map (fun e => (e.1, e.2.resolve)) := by
  induction entries with
  | nil => rfl
  | cons entry rest ih => rw [resolveEntries, ih, List.map_cons]

@[simp] theorem keys_resolveEntries (entries : Entries Value) :
    keys (resolveEntries entries) = keys entries := by
  rw [resolveEntries_eq_map]
  simp [keys]

theorem distinct_resolveEntries {entries : Entries Value} (h : Distinct entries) :
    Distinct (resolveEntries entries) := by
  unfold Distinct
  rwa [keys_resolveEntries]

theorem get?_resolveEntries (key : String) (entries : Entries Value) :
    get? key (resolveEntries entries) = (get? key entries).map resolve := by
  induction entries with
  | nil => rfl
  | cons entry rest ih =>
    obtain ⟨k, value⟩ := entry
    rw [resolveEntries, get?_cons, get?_cons, ih]
    split <;> rfl

/-- An update before the resolution and one after it come to the same. -/
theorem resolveEntries_update {key : String} {f : Option Value → Value}
    {g : Option Document → Document} {entries : Entries Value}
    (h : (f (get? key entries)).resolve = g ((get? key entries).map resolve)) :
    resolveEntries (update key f entries) = update key g (resolveEntries entries) := by
  induction entries with
  | nil => simpa [update, resolveEntries] using h
  | cons entry rest ih =>
    obtain ⟨k, value⟩ := entry
    rw [get?_cons] at h
    rw [update, resolveEntries, update]
    split
    · rename_i hk
      rw [if_pos hk] at h
      rw [resolveEntries, h]
      rfl
    · rename_i hk
      rw [if_neg hk] at h
      rw [resolveEntries, ih h]

theorem resolveEntries_insert (key : String) (value : Value) (entries : Entries Value) :
    resolveEntries (insert key value entries) =
      insert key value.resolve (resolveEntries entries) := resolveEntries_update rfl

theorem resolveEntries_erase (key : String) (entries : Entries Value) :
    resolveEntries (erase key entries) = erase key (resolveEntries entries) := by
  unfold erase
  rw [resolveEntries_eq_map, resolveEntries_eq_map, List.filter_map]
  rfl

end Value

end SearchQuery
