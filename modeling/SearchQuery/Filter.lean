import SearchQuery.Draft

/-!
# Filters

One entry of the `filtered` clause: a query, if there is one, beside the clauses that narrow it. The
two halves never mix.
-/

namespace SearchQuery

structure Filter where
  draft : Draft := .group
  /-- The finished query half. -/
  query : Option Document := none

namespace Filter

/-- The entries of the query half, and the filter half after them unless it is empty. -/
def document (filter : Filter) : Document :=
  let query := filter.query.elim [] Document.entries
  let narrowing := filter.draft.clauseDocument
  .object (if narrowing.entries.isEmpty then query else Entries.insert "filter" narrowing query)

def setQuery (query : Document) (filter : Filter) : Filter := { filter with query := some query }

def setDraft (draft : Draft) (filter : Filter) : Filter := { filter with draft := draft }

end Filter

end SearchQuery
