import SearchQuery.Step.Run

/-!
# Searching an index

An index gives its name to a query and hands both to a client. A query that cannot be built is never
sent.
-/

namespace SearchQuery

structure Request where
  options : Entries Document
  body : Document

/-- What answers requests. The answer may depend on the requests that came before. -/
abbrev Client (ε ρ : Type) := (earlier : List Request) → Request → Except ε ρ

inductive SearchError (ε : Type) where
  /-- The query could not be built, and nothing was sent. -/
  | query (error : QueryError)
  | client (error : ε)

namespace SearchError

variable {ε : Type}

def message (clientMessage : ε → String) : SearchError ε → String
  | .query error => error.message
  | .client error => "Search client error: " ++ clientMessage error

/-- The text of the error that lies behind. -/
def source (clientMessage : ε → String) : SearchError ε → String
  | .query error => error.message
  | .client error => clientMessage error

end SearchError

/-- What a query leaves: the requests that the client has received so far, the notes of the
procedure, and the answer. -/
structure Exchange (ε ρ : Type) where
  sent : List Request
  notes : List Note
  answer : Except (SearchError ε) ρ

structure Index where
  name : String

namespace Index

variable {ε ρ : Type}

/-- The options of a search, with the name of the index in them. -/
def searchOptions (index : Index) (options : Document) : Except QueryError (Entries Document) :=
  (readOptions "search" options).map (fun options =>
    (Value.object (Entries.insert "index" (.string index.name) options)).resolve.entries)

/-- Builds the query and sends it. The options are checked before the procedure is run. -/
def query (index : Index) (client : Client ε ρ) (sent : List Request) (options : Document)
    (procedure : List Step) : Exchange ε ρ :=
  match index.searchOptions options with
  | .error error => ⟨sent, [], .error (.query error)⟩
  | .ok options =>
    let outcome := Step.runAll procedure .root
    match outcome.error with
    | some error => ⟨sent, outcome.notes, .error (.query error)⟩
    | none =>
      let request := ⟨options, outcome.state.document⟩
      ⟨sent ++ [request], outcome.notes, (client sent request).mapError .client⟩

end Index

end SearchQuery
