import SearchQuery.Value

/-!
# Merging values

Objects merge entry by entry, arrays are joined, and in every other case the incoming value takes
the place of the old one. A deferred value is not looked into.
-/

namespace SearchQuery.Value

mutual

def merge (old : Value) : Value → Value
  | .object incoming =>
    match old with
    | .object target => .object (mergeEntries target incoming)
    | _ => .object incoming
  | .array incoming =>
    match old with
    | .array items => .array (items ++ incoming)
    | _ => .array incoming
  | incoming => incoming

/-- Merges the incoming entries one after the other. New keys come last. -/
def mergeEntries (target : Entries Value) : List (String × Value) → Entries Value
  | [] => target
  | (key, incoming) :: rest =>
    mergeEntries
      (Entries.update key
        (fun
          | some old => merge old incoming
          | none => incoming)
        target)
      rest

end

end SearchQuery.Value
