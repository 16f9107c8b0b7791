import SearchQuery.Occur
import SearchQuery.QueryError

/-!
# Outcomes

What a run leaves: the state it reached, the notes it took on the way, and the error that ended it,
if one did. What was done before an error stays done, so a caller who catches the error goes on from
the state that was reached.
-/

namespace SearchQuery

/-- A trace of the code that ran. -/
inductive Note where
  | label (text : String)
  /-- Whether the draft was a root. -/
  | context (isRoot : Bool)
  | field (name : String) (occur : Option Occur)
  /-- What a catch found. -/
  | caught (error : Option QueryError)

structure Outcome (σ : Type) where
  state : σ
  notes : List Note
  error : Option QueryError

namespace Outcome

variable {σ τ α : Type}

def done (state : σ) : Outcome σ := ⟨state, [], none⟩

def failed (state : σ) (error : QueryError) : Outcome σ := ⟨state, [], some error⟩

def noted (state : σ) (note : Note) : Outcome σ := ⟨state, [note], none⟩

/-- Goes on from the state reached, unless an error has ended the run. -/
def andThen (first : Outcome σ) (next : σ → Outcome σ) : Outcome σ :=
  match first.error with
  | some _ => first
  | none =>
    let second := next first.state
    ⟨second.state, first.notes ++ second.notes, second.error⟩

/-- Ends an error here, and notes it. -/
def caught (outcome : Outcome σ) : Outcome σ :=
  ⟨outcome.state, outcome.notes ++ [.caught outcome.error], none⟩

/-- A checked change of the state. When the check fails, nothing has changed. -/
def ofExcept (state : σ) : Except QueryError σ → Outcome σ
  | .ok next => done next
  | .error error => failed state error

/-- Brings the result of an inner run into the outer state. When the inner run fails, the outer state
has not changed. -/
def into (inner : Outcome τ) (outer : σ) (store : τ → σ) : Outcome σ :=
  match inner.error with
  | some error => ⟨outer, inner.notes, some error⟩
  | none => ⟨store inner.state, inner.notes, none⟩

/-- Takes the steps in order, up to the first that fails. -/
def runAll (run : α → σ → Outcome σ) : List α → σ → Outcome σ
  | [], state => done state
  | step :: rest, state => (run step state).andThen (runAll run rest)

/-- The result of a run without its notes. -/
def result (outcome : Outcome σ) (finish : σ → α) : Except QueryError α :=
  match outcome.error with
  | some error => .error error
  | none => .ok (finish outcome.state)

end Outcome

end SearchQuery
