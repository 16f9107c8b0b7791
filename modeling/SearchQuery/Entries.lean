/-!
# Ordered entries

An object is the list of its entries, in the order in which their keys were first inserted. A
repeated key keeps its place and takes the new value, so the same calls always give the same text.
-/

namespace SearchQuery

/-- The entries of an object, first inserted first. -/
abbrev Entries (α : Type) := List (String × α)

namespace Entries

variable {α : Type}

def keys (entries : Entries α) : List String := entries.map Prod.fst

def get? (key : String) : Entries α → Option α
  | [] => none
  | (k, a) :: rest => if k = key then some a else get? key rest

def contains (key : String) (entries : Entries α) : Bool := (get? key entries).isSome

/-- Changes the entry at `key` in its place, or adds one at the end. `f` sees the value that is there,
if any. -/
def update (key : String) (f : Option α → α) : Entries α → Entries α
  | [] => [(key, f none)]
  | (k, a) :: rest => if k = key then (k, f (some a)) :: rest else (k, a) :: update key f rest

def insert (key : String) (a : α) (entries : Entries α) : Entries α := update key (fun _ => a) entries

/-- Inserts the entries of `incoming` one after the other. -/
def insertAll (entries incoming : Entries α) : Entries α :=
  incoming.foldl (fun acc entry => insert entry.1 entry.2 acc) entries

def ofList (entries : List (String × α)) : Entries α := insertAll [] entries

def erase (key : String) (entries : Entries α) : Entries α :=
  entries.filter (fun entry => entry.1 ≠ key)

/-- No key stands twice. Everything built with the operations above has this property. -/
def Distinct (entries : Entries α) : Prop := (keys entries).Nodup

/-! ## What each operation does to look-up and to the keys -/

theorem get?_update_self (key : String) (f : Option α → α) (entries : Entries α) :
    get? key (update key f entries) = some (f (get? key entries)) := by
  induction entries with
  | nil => simp [update, get?]
  | cons entry rest ih =>
    obtain ⟨k, a⟩ := entry
    by_cases h : k = key <;> simp [update, get?, h, ih]

theorem get?_update_of_ne {key other : String} (h : other ≠ key) (f : Option α → α)
    (entries : Entries α) : get? other (update key f entries) = get? other entries := by
  induction entries with
  | nil => simp [update, get?, Ne.symm h]
  | cons entry rest ih =>
    obtain ⟨k, a⟩ := entry
    by_cases hk : k = key
    · subst hk; simp [update, get?, Ne.symm h]
    · simp [update, get?, hk, ih]

theorem get?_eq_none_iff (key : String) (entries : Entries α) :
    get? key entries = none ↔ key ∉ keys entries := by
  induction entries with
  | nil => simp [get?, keys]
  | cons entry rest ih =>
    obtain ⟨k, a⟩ := entry
    by_cases h : k = key
    · simp [get?, keys, h]
    · simpa [get?, keys, h, Ne.symm h] using ih

/-- The keys stay where they are, and a new key comes last. -/
theorem keys_update (key : String) (f : Option α → α) (entries : Entries α) :
    keys (update key f entries) =
      if key ∈ keys entries then keys entries else keys entries ++ [key] := by
  induction entries with
  | nil => simp [update, keys]
  | cons entry rest ih =>
    obtain ⟨k, a⟩ := entry
    by_cases h : k = key
    · simp [update, keys, h]
    · by_cases hm : key ∈ keys rest <;> simp_all [update, keys, Ne.symm h]

theorem distinct_update {key : String} {f : Option α → α} {entries : Entries α}
    (h : Distinct entries) : Distinct (update key f entries) := by
  unfold Distinct at *
  rw [keys_update]
  split
  · exact h
  · rename_i hk
    exact List.nodup_append.2 ⟨h, by simp, by
      intro a ha b hb
      rw [List.mem_singleton.1 hb]
      exact fun hab => hk (hab ▸ ha)⟩

theorem distinct_insertAll {entries : Entries α} (h : Distinct entries) (incoming : Entries α) :
    Distinct (insertAll entries incoming) := by
  induction incoming generalizing entries with
  | nil => exact h
  | cons entry rest ih => exact ih (distinct_update h)

end Entries

end SearchQuery
