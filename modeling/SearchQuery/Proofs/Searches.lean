import SearchQuery.Index
import SearchQuery.Proofs.Entries

/-!
# Histories of searches

What a client receives from a sequence of searches, on one index or on several, and what each of them
is answered. A search that cannot be built leaves no request, and the client's failures change
nothing for the searches after them.
-/

namespace SearchQuery

open Entries

theorem Entries.insert_eq_append {α : Type} (key : String) (a : α) (entries : Entries α) :
    insert key a entries = entries.takeWhile (fun e => e.1 ≠ key) ++
      (key, a) :: (entries.dropWhile (fun e => e.1 ≠ key)).drop 1 := by
  induction entries with
  | nil => rfl
  | cons entry rest ih =>
    obtain ⟨k, b⟩ := entry
    unfold insert at ih ⊢
    by_cases h : k = key
    · simp [update, h]
    · simp [update, h, ih]

/-! ## Searches -/

/-- One call for a query on an index. -/
structure Search where
  index : Index
  options : Document
  procedure : List Step

namespace Search

/-- The options that the caller gives. Null stands for none, and another shape for a mistake. -/
def given? (search : Search) : Option (Entries Document) :=
  match search.options with
  | .null => some []
  | .object entries => some entries
  | _ => none

/-- The options as the caller gives them, but for `index`. The name takes the place of the caller's
own entry, and without one comes last. -/
def named (name : String) (options : Entries Document) : Entries Document :=
  options.takeWhile (fun e => e.1 ≠ "index") ++
    ("index", .string name) :: (options.dropWhile (fun e => e.1 ≠ "index")).drop 1

/-- The request that the search comes to, or why there is none. -/
def request? (search : Search) : Except QueryError Request :=
  match search.given? with
  | none => .error (.usage (.optionsNotObject "search"))
  | some options =>
    (build search.procedure).map (fun body => ⟨named search.index.name options, body⟩)

/-- The notes of the procedure, which is not run if there are no options to send. -/
def notes (search : Search) : List Note :=
  match search.given? with
  | none => []
  | some _ => (Step.runAll search.procedure .root).notes

end Search

/-- What the searches send, one request for each that can be built. -/
def requests (searches : List Search) : List Request :=
  searches.filterMap (fun search => search.request?.toOption)

section

variable {ε ρ : Type}

/-- What a search leaves when the client has received the requests `earlier`. -/
def Search.exchange (client : Client ε ρ) (earlier : List Request) (search : Search) :
    Exchange ε ρ :=
  match search.request? with
  | .error error => ⟨earlier, search.notes, .error (.query error)⟩
  | .ok request =>
    { sent := earlier ++ [request]
      notes := search.notes
      answer :=
        match client earlier request with
        | .ok response => .ok response
        | .error error => .error (.client error) }

/-- Makes the searches one after the other, each on the client as the ones before have left it. -/
def exchanges (client : Client ε ρ) : List Request → List Search → List (Exchange ε ρ)
  | _, [] => []
  | sent, search :: rest =>
    let exchange := search.index.query client sent search.options search.procedure
    exchange :: exchanges client exchange.sent rest

/-- What the client has received in the end. -/
def received (client : Client ε ρ) (sent : List Request) (searches : List Search) : List Request :=
  ((exchanges client sent searches).getLast?.map Exchange.sent).getD sent

/-! ## One search -/

theorem Index.searchOptions_eq (search : Search) :
    search.index.searchOptions search.options =
      match search.given? with
      | none => .error (.usage (.optionsNotObject "search"))
      | some options => .ok (Search.named search.index.name options) := by
  have hnamed : ∀ options : Entries Document,
      (Value.object (insert "index" (.string search.index.name)
        (Document.toValueEntries options))).resolve.entries =
          Search.named search.index.name options := by
    intro options
    rw [Value.resolve, Value.resolveEntries_insert, Document.resolve_toValueEntries]
    exact insert_eq_append "index" _ options
  unfold Index.searchOptions Search.given? readOptions
  cases search.options with
  | null => exact congrArg Except.ok (hnamed [])
  | object entries => exact congrArg Except.ok (hnamed entries)
  | bool | number | string | array => rfl

theorem Index.query_eq_exchange (client : Client ε ρ) (sent : List Request) (search : Search) :
    search.index.query client sent search.options search.procedure =
      search.exchange client sent := by
  unfold Index.query Search.exchange Search.request? Search.notes build Outcome.result
  rw [Index.searchOptions_eq]
  cases search.given? with
  | none => rfl
  | some options =>
    dsimp only
    cases (Step.runAll search.procedure .root).error with
    | some error => rfl
    | none =>
      dsimp only [Except.map]
      cases client sent ⟨Search.named search.index.name options,
        (Step.runAll search.procedure .root).state.document⟩ <;> rfl

theorem Search.sent_exchange (client : Client ε ρ) (sent : List Request) (search : Search) :
    (search.exchange client sent).sent = sent ++ requests [search] := by
  unfold Search.exchange requests
  cases hrequest : search.request? <;> simp [hrequest, Except.toOption]

/-! ## Histories -/

theorem requests_cons (search : Search) (rest : List Search) :
    requests (search :: rest) = requests [search] ++ requests rest :=
  List.filterMap_append (l := [search])

theorem exchanges_cons (client : Client ε ρ) (sent : List Request) (search : Search)
    (rest : List Search) :
    exchanges client sent (search :: rest) = search.exchange client sent ::
      exchanges client (sent ++ requests [search]) rest := by
  rw [exchanges, Index.query_eq_exchange, Search.sent_exchange]

theorem received_cons (client : Client ε ρ) (sent : List Request) (search : Search)
    (rest : List Search) :
    received client sent (search :: rest) =
      received client (sent ++ requests [search]) rest := by
  unfold received
  rw [exchanges_cons, List.getLast?_cons, Option.map_some, Option.getD_some,
    ← Search.sent_exchange client]
  cases (exchanges client (search.exchange client sent).sent rest).getLast? <;> rfl

theorem received_eq (client : Client ε ρ) (sent : List Request) (searches : List Search) :
    received client sent searches = sent ++ requests searches := by
  induction searches generalizing sent with
  | nil => exact (List.append_nil sent).symm
  | cons search rest ih =>
    rw [received_cons, ih, List.append_assoc, ← requests_cons]

theorem getElem?_exchanges (client : Client ε ρ) (sent : List Request) (searches : List Search)
    (k : Nat) :
    (exchanges client sent searches)[k]? = searches[k]?.map (fun search =>
      search.exchange client (sent ++ requests (searches.take k))) := by
  induction searches generalizing sent k with
  | nil => rfl
  | cons search rest ih =>
    rw [exchanges_cons]
    cases k with
    | zero => simp [requests]
    | succ k =>
      rw [List.getElem?_cons_succ, ih, List.getElem?_cons_succ, List.take_succ_cons,
        requests_cons search (rest.take k), List.append_assoc]

/-- A client receives the requests of the searches that can be built, in their order and once each,
whatever it answers. And a search leaves what it would leave alone on a client that has received the
requests before it, so no error changes anything for the searches after it. -/
theorem only_built_queries_are_sent (client : Client ε ρ) (sent : List Request)
    (searches : List Search) :
    received client sent searches = sent ++ requests searches ∧
      ∀ k : Nat, (exchanges client sent searches)[k]? = searches[k]?.map (fun search =>
        search.exchange client (sent ++ requests (searches.take k))) :=
  ⟨received_eq client sent searches, getElem?_exchanges client sent searches⟩

/-- A client that fails once. The index name takes the place of the caller's own, and the search
whose options are a text is not sent. -/
example :
    let products : Index := ⟨"products"⟩
    let client : Client String Nat := fun earlier _ =>
      if earlier.length = 1 then .error "busy" else .ok earlier.length
    let own : Document := .object [("index", .null), ("size", .null)]
    let searches : List Search :=
      [ ⟨products, own, []⟩, ⟨products, .string "fuzzy", []⟩, ⟨products, .null, []⟩,
        ⟨products, .null, []⟩ ]
    let body : Document := .object [("query", .object [])]
    let bare : Request := ⟨[("index", .string "products")], body⟩
    received client [] searches =
        [⟨[("index", .string "products"), ("size", .null)], body⟩, bare, bare] ∧
      (exchanges client [] searches).map Exchange.answer =
        [ .ok 0, .error (.query (.usage (.optionsNotObject "search"))), .error (.client "busy"),
          .ok 2 ] := ⟨rfl, rfl⟩

end

end SearchQuery
