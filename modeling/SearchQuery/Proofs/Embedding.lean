import SearchQuery.Proofs.Explicit

/-!
# Documents inside documents

The document of a group is taken as a value and resolved once more for each group around it. Nothing
is lost on the way, so a body leaves the same document at the end of any chain of groups.
-/

namespace SearchQuery

open Entries

/-! ## Chains of groups -/

/-- The body in a chain of groups, the first of them outermost. Each group holds only the next. -/
def inGroups (occurs : List Occur) (body : List Step) : List Step :=
  occurs.foldr (fun occur inner => [.call (.group occur inner)]) body

namespace Document

/-- Clauses with one group that holds one entry. -/
def groupOf (occur : Occur) (entry : Document) : Document :=
  .object [("bool", .object [(occur.key, .array [entry])])]

def inGroups (occurs : List Occur) (d : Document) : Document := occurs.foldr groupOf d

/-- The first entry of a group. -/
def firstOf? (occur : Occur) (d : Document) : Option Document :=
  (get? "bool" d.entries).bind (fun groups =>
    (get? occur.key groups.entries).bind (fun list => list.items.head?))

/-- Goes down a chain of groups, from each to its first entry. -/
def descend? : List Occur → Document → Option Document
  | [], d => some d
  | occur :: rest, d => (d.firstOf? occur).bind (descend? rest)

theorem firstOf?_groupOf (occur : Occur) (entry : Document) :
    (groupOf occur entry).firstOf? occur = some entry := by
  simp [groupOf, firstOf?, entries, items, get?_cons]

theorem descend?_inGroups (occurs : List Occur) (d : Document) :
    (d.inGroups occurs).descend? occurs = some d := by
  induction occurs with
  | nil => rfl
  | cons occur rest ih =>
    rw [descend?]
    change ((groupOf occur (d.inGroups rest)).firstOf? occur).bind (descend? rest) = some d
    rw [firstOf?_groupOf, Option.bind_some, ih]

end Document

/-! ## Their documents -/

/-- A body that only opens a group succeeds if the body of the group does, and holds its document. -/
theorem result_group {α : Type} (occur : Occur) (body : List Step) (draft : Draft)
    (finish : Draft → α) :
    (Step.runAll [.call (.group occur body)] draft).result finish =
      (buildGroup body).map (fun d => finish (draft.addToGroup occur d)) := by
  unfold buildGroup Outcome.result
  rw [Step.runAll_singleton, Step.run, Call.run, Outcome.into_error]
  cases herror : (Step.runAll body .group).error with
  | some error => rfl
  | none =>
    have hrun : (Step.runAll [.call (.group occur body)] draft).error = none := by
      rw [Step.runAll_singleton, Step.run, Call.run, Outcome.into_error, herror]
    rw [Step.runAll_state hrun]
    simp [Step.edit?, Call.edit?, buildGroup, Outcome.result, herror, Except.toOption, Except.map,
      Edit.apply]

theorem clauseDocument_addToGroup (isRoot : Bool) (occur : Occur) (d : Document) :
    (Draft.addToGroup occur d { isRoot := isRoot }).clauseDocument = d.groupOf occur := by
  have hitem : d.toValue.resolve = d := d.resolve_toValue
  simp [Draft.clauseDocument, Draft.allClauses, Draft.addToGroup, Clauses.appendToGroup,
    Clauses.append, update, Value.resolve, Value.resolveEntries, Value.resolveItems,
    Document.groupOf, hitem]

theorem buildGroup_group (occur : Occur) (body : List Step) :
    buildGroup [.call (.group occur body)] = (buildGroup body).map (Document.groupOf occur) := by
  rw [buildGroup, result_group]
  exact congrArg (fun f => (buildGroup body).map f)
    (funext fun d => clauseDocument_addToGroup false occur d)

theorem build_group (occur : Occur) (body : List Step) :
    build [.call (.group occur body)] =
      (buildGroup body).map (fun d => .object [("query", d.groupOf occur)]) := by
  rw [build, result_group]
  refine congrArg (fun f => (buildGroup body).map f) (funext fun d => ?_)
  rw [← clauseDocument_addToGroup true occur d]
  rfl

/-- Around the document of the body stands one clause object for each group, and nothing else. -/
theorem buildGroup_inGroups (occurs : List Occur) (body : List Step) :
    buildGroup (inGroups occurs body) = (buildGroup body).map (Document.inGroups occurs) := by
  induction occurs with
  | nil => cases hbody : buildGroup body <;> simp [inGroups, hbody, Except.map, Document.inGroups]
  | cons occur rest ih =>
    rw [inGroups, List.foldr_cons, buildGroup_group, ← inGroups, ih]
    cases buildGroup body <;> rfl

/-! ## Nothing is lost -/

/-- A document comes back unchanged from its value, so resolving a value again changes nothing, and
at the end of a chain of groups stands the document that the innermost body has on its own. A body
that fails fails the whole chain with its error. -/
theorem embedding_keeps_documents :
    (∀ d : Document, d.toValue.resolve = d) ∧
    (∀ value : Value, value.resolve.toValue.resolve = value.resolve) ∧
    (∀ (occurs : List Occur) (body : List Step),
      (buildGroup (inGroups occurs body)).map (Document.descend? occurs) =
        (buildGroup body).map some) ∧
    (∀ (occur : Occur) (occurs : List Occur) (body : List Step),
      (build (inGroups (occur :: occurs) body)).map
          (fun d => (get? "query" d.entries).bind (Document.descend? (occur :: occurs))) =
        (buildGroup body).map some) := by
  refine ⟨Document.resolve_toValue, fun value => value.resolve.resolve_toValue, ?_, ?_⟩
  · intro occurs body
    rw [buildGroup_inGroups]
    cases buildGroup body with
    | error error => rfl
    | ok d => exact congrArg Except.ok (Document.descend?_inGroups occurs d)
  · intro occur occurs body
    have hquery : ∀ d : Document,
        (get? "query" (Document.object [("query", d.inGroups (occur :: occurs))]).entries).bind
          (Document.descend? (occur :: occurs)) = some d := by
      intro d
      simp [Document.entries, get?_cons, Document.descend?_inGroups]
    rw [inGroups, List.foldr_cons, build_group, ← inGroups, buildGroup_inGroups]
    cases buildGroup body with
    | error error => rfl
    | ok d => exact congrArg Except.ok (hquery d)

/-- Negative zero, the largest whole number, and a failure that is caught on the way, three groups
deep. -/
example :
    let boost : Document := .object
      [ ("z", .number (.float ⟨true, 0, by decide⟩ (by decide))),
        ("a", .number (.int 0xFFFFFFFFFFFFFFFF (by decide))) ]
    let body : List Step :=
      [ .call (.queryString "rust" (.object [("boost", boost)])),
        .attempt (.call (.queryString "rust" (.string "fuzzy"))) ]
    (build (inGroups [.must, .mustNot, .should] body)).map
        (fun d => (get? "query" d.entries).bind
          (Document.descend? [.must, .mustNot, .should])) =
      .ok (some (.object [("query_string",
        .object [("boost", boost), ("query", .string "rust")])])) := rfl

end SearchQuery
