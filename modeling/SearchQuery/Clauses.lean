import SearchQuery.Occur
import SearchQuery.Value

/-!
# Clauses

Named clauses, each an object or a list that grows entry by entry. A clause of another shape gives
way to a fresh one.
-/

namespace SearchQuery

abbrev Clauses := Entries Value

namespace Clauses

/-- Adds `item` at the end of the list at `key`. -/
def append (key : String) (item : Value) (clauses : Clauses) : Clauses :=
  Entries.update key (fun old => .array ((old.elim [] Value.items) ++ [item])) clauses

/-- Puts `value` under `name` into the object at `key`. -/
def put (key name : String) (value : Value) (clauses : Clauses) : Clauses :=
  Entries.update key (fun old => .object (Entries.insert name value (old.elim [] Value.entries)))
    clauses

/-- Adds `item` to a group of the `bool` clause. -/
def appendToGroup (occur : Occur) (item : Value) (clauses : Clauses) : Clauses :=
  Entries.update "bool" (fun old => .object (append occur.key item (old.elim [] Value.entries)))
    clauses

end Clauses

end SearchQuery
