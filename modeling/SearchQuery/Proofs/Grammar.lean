import SearchQuery.Aggregation
import SearchQuery.Proofs.Operator

/-!
# The grammar of finished queries

Which documents a search engine may be sent. A rule speaks of all entries of an object, so a document
of the grammar holds nothing else than what its rule names.
-/

namespace SearchQuery

open Entries

namespace Document

def HasKey (key : String) (d : Document) : Prop :=
  ∃ entries, d = .object entries ∧ key ∈ keys entries

def ObjectOf (P : String → Document → Prop) (d : Document) : Prop :=
  ∃ entries, d = .object entries ∧ entries ≠ [] ∧ Distinct entries ∧ ∀ e ∈ entries, P e.1 e.2

def ListOf (P : Document → Prop) (d : Document) : Prop :=
  ∃ items, d = .array items ∧ items ≠ [] ∧ ∀ item ∈ items, P item

end Document

namespace Value

theorem HasKey.resolve {key : String} {value : Value} (h : value.HasKey key) :
    value.resolve.HasKey key := by
  obtain ⟨entries, rfl, hkey⟩ := h
  exact ⟨_, rfl, by rwa [keys_resolveEntries]⟩

theorem ObjectOf.resolve {P : String → Value → Prop} {Q : String → Document → Prop} {value : Value}
    (h : value.ObjectOf P) (hPQ : ∀ key v, P key v → Q key v.resolve) :
    value.resolve.ObjectOf Q := by
  obtain ⟨entries, rfl, hne, hdistinct, hentries⟩ := h
  refine ⟨_, rfl, ?_, ?_, ?_⟩
  · rw [resolveEntries_eq_map]
    simpa using hne
  · exact distinct_resolveEntries hdistinct
  · intro e he
    rw [resolveEntries_eq_map] at he
    obtain ⟨entry, hentry, rfl⟩ := List.mem_map.1 he
    exact hPQ _ _ (hentries entry hentry)

theorem ListOf.resolve {P : Value → Prop} {Q : Document → Prop} {value : Value}
    (h : value.ListOf P) (hPQ : ∀ v, P v → Q v.resolve) : value.resolve.ListOf Q := by
  obtain ⟨items, rfl, hne, hitems⟩ := h
  refine ⟨_, rfl, ?_, ?_⟩
  · rw [resolveItems_eq_map]
    simpa using hne
  · intro d hd
    rw [resolveItems_eq_map] at hd
    obtain ⟨item, hitem, rfl⟩ := List.mem_map.1 hd
    exact hPQ _ (hitems item hitem)

end Value

/-- What may stand under the key of an operator. -/
def Operator.Operands : Operator → Document → Prop
  | .term => Document.ObjectOf (fun _ _ => True)
  | .matching _ => Document.ObjectOf (fun _ options => options.HasKey "query")
  | .terms => Document.ListOf (Document.HasKey "minimum_should_match")
  | .regex =>
    Document.ListOf (fun entry => ∃ name pattern, entry = .object [(name, .string pattern)])
  | .range =>
    Document.ObjectOf (fun _ => Document.ObjectOf (fun side _ => ∃ bound, side = Bound.key bound))

theorem Operator.Fits.resolve {op : Operator} {value : Value} (h : op.Fits value) :
    op.Operands value.resolve := by
  cases op <;> unfold Operator.Fits at h <;> unfold Operator.Operands
  case term => exact h.resolve (fun _ _ _ => trivial)
  case matching => exact h.resolve (fun _ _ hv => hv.resolve)
  case terms => exact h.resolve (fun _ hv => hv.resolve)
  case regex =>
    refine h.resolve (fun _ hv => ?_)
    obtain ⟨name, pattern, rfl⟩ := hv
    exact ⟨name, pattern, rfl⟩
  case range => exact h.resolve (fun _ _ hv => hv.resolve (fun _ _ hside => hside))

/-! ## The rules -/

namespace Grammar

def SortEntry (d : Document) : Prop := ∃ field criterion, d = .object [(field, .object criterion)]

def Aggregated (d : Document) : Prop :=
  ∃ function field, d = .object [(function, .object [("field", .string field)])]

mutual

/-- What may stand under a key of a clause object. -/
inductive Clause : String → Document → Prop where
  | queryString {d : Document} (query : d.HasKey "query") : Clause "query_string" d
  | multiMatch {d : Document} (query : d.HasKey "query") (fields : d.HasKey "fields") :
      Clause "multi_match" d
  | bool {groups : Entries Document} (nonempty : groups ≠ []) (distinct : Distinct groups)
      (named : ∀ g ∈ groups, ∃ occur, g.1 = Occur.key occur) (lists : ∀ g ∈ groups, GroupList g.2) :
      Clause "bool" (.object groups)
  | filtered {items : List Document} (nonempty : items ≠ []) (each : ∀ d ∈ items, Filtered d) :
      Clause "filtered" (.array items)
  | aggs {named : Entries Document} (distinct : Distinct named) (each : ∀ e ∈ named, Aggregated e.2) :
      Clause "aggs" (.object named)
  | operator (op : Operator) {d : Document} (operands : op.Operands d) : Clause op.key d

inductive GroupList : Document → Prop where
  | mk {items : List Document} (nonempty : items ≠ []) (each : ∀ d ∈ items, Group d) :
      GroupList (.array items)

inductive Group : Document → Prop where
  | mk {clauses : Entries Document} (distinct : Distinct clauses)
      (each : ∀ c ∈ clauses, Clause c.1 c.2) : Group (.object clauses)

/-- The clauses of a root. Bare clauses and operators are not among them. -/
inductive Query : Document → Prop where
  | mk {clauses : Entries Document} (distinct : Distinct clauses)
      (named : ∀ c ∈ clauses, c.1 ∈ ["bool", "filtered", "aggs"])
      (each : ∀ c ∈ clauses, Clause c.1 c.2) : Query (.object clauses)

inductive Root : Document → Prop where
  | unsorted {query : Document} (clauses : Query query) : Root (.object [("query", query)])
  | sorted {query sort : Document} (clauses : Query query) (entries : sort.ListOf SortEntry) :
      Root (.object [("query", query), ("sort", sort)])

/-- One entry of the `filtered` list: the entries of a root, and the clauses that narrow it. -/
inductive Filtered : Document → Prop where
  | empty : Filtered (.object [])
  | query {entries : Entries Document} (root : Root (.object entries)) : Filtered (.object entries)
  | filter {clauses : Document} (group : Group clauses) (nonempty : clauses ≠ .object []) :
      Filtered (.object [("filter", clauses)])
  | both {entries : Entries Document} {clauses : Document} (root : Root (.object entries))
      (group : Group clauses) (nonempty : clauses ≠ .object []) :
      Filtered (.object (entries ++ [("filter", clauses)]))

end

end Grammar

end SearchQuery
