import SearchQuery.Proofs.Host
import SearchQuery.Proofs.Operands

/-!
# Full-text clauses

A `query_string` or `multi_match` call is accepted or refused for its options alone. It writes the
options with the text, and the fields, in their places. In a root each accepted call is an entry of
its own. Elsewhere the last one of its kind counts, in the place of the first.
-/

namespace SearchQuery

open Entries

/-- The keys of full-text clauses. -/
def fullTextKeys : List String := ["query_string", "multi_match"]

theorem kind_of_mem {key : String} (h : key ∈ fullTextKeys) :
    ∃ kind : ClauseKind, (kind = .queryString ∨ kind = .multiMatch) ∧ key = kind.key := by
  rcases List.mem_cons.1 h with rfl | h
  · exact ⟨.queryString, Or.inl rfl, rfl⟩
  · rw [List.mem_singleton.1 h]
    exact ⟨.multiMatch, Or.inr rfl, rfl⟩

/-- A full-text call. -/
inductive FullText where
  | queryString (text : String) (options : Document)
  | multiMatch (text : String) (fields : List String) (options : Document)

namespace FullText

def kind : FullText → ClauseKind
  | .queryString _ _ => .queryString
  | .multiMatch _ _ _ => .multiMatch

abbrev key (call : FullText) : String := call.kind.key

theorem key_mem : (call : FullText) → call.key ∈ fullTextKeys
  | .queryString _ _ => List.mem_cons_self
  | .multiMatch _ _ _ => List.mem_cons_of_mem _ List.mem_cons_self

def options : FullText → Document
  | .queryString _ options => options
  | .multiMatch _ _ options => options

def toCall : FullText → Call
  | .queryString text options => .queryString text options
  | .multiMatch text fields options => .multiMatch text fields options

/-- The options are null or an object. A `query_string` knows all of them. -/
def accepts : FullText → Bool
  | .queryString _ .null => true
  | .queryString _ (.object entries) =>
    (keys entries).all (fun key => queryStringOptions.contains key)
  | .multiMatch _ _ .null => true
  | .multiMatch _ _ (.object _) => true
  | _ => false

/-- Why a call is refused. -/
inductive Refused : FullText → QueryError → Prop where
  | shape {call : FullText} (notNull : call.options ≠ .null)
      (notObject : ∀ entries, call.options ≠ .object entries) :
      Refused call (.usage (.optionsNotObject call.key))
  /-- The error names the first option that is not known. -/
  | option {text key : String} {value : Document} {before after : Entries Document}
      (known : ∀ k ∈ keys before, k ∈ queryStringOptions) (unknown : key ∉ queryStringOptions) :
      Refused (.queryString text (.object (before ++ (key, value) :: after)))
        (.invalidOption "query_string" key)

/-- The content of the clause. -/
def written : FullText → Entries Document
  | .queryString text options => insert "query" (.string text) options.entries
  | .multiMatch text fields options =>
    insert "fields" (.array (fields.map .string)) (insert "query" (.string text) options.entries)

/-- The options in their order, with the text at `query` and the fields at `fields`. -/
inductive LaidOut : FullText → Entries Document → Prop where
  | queryString {text : String} {options : Document} {content : Entries Document}
      (query : Placed "query" (.string text) options.entries content) :
      LaidOut (.queryString text options) content
  | multiMatch {text : String} {fields : List String} {options : Document}
      {between content : Entries Document}
      (query : Placed "query" (.string text) options.entries between)
      (names : Placed "fields" (.array (fields.map .string)) between content) :
      LaidOut (.multiMatch text fields options) content

theorem laidOut_written : (call : FullText) → LaidOut call call.written
  | .queryString _ _ => .queryString (placed_insert _ _ _)
  | .multiMatch _ _ _ => .multiMatch (placed_insert _ _ _) (placed_insert _ _ _)

/-! ## Reading the options -/

/-- What the call makes of its options. -/
def read : FullText → Except QueryError Value
  | .queryString text options => SearchQuery.queryString text options
  | .multiMatch text fields options => SearchQuery.multiMatch text fields options

/-- The clause of a call that is accepted. -/
def clause : FullText → Value
  | .queryString text options =>
    .object (insert "query" (.string text) (Document.toValueEntries options.entries))
  | .multiMatch text fields options =>
    .object (insert "fields" (.array (fields.map .string))
      (insert "query" (.string text) (Document.toValueEntries options.entries)))

theorem resolve_clause (call : FullText) : call.clause.resolve = .object call.written := by
  have hquery : ∀ (text : String) (options : Document), Value.resolveEntries
      (insert "query" (.string text) (Document.toValueEntries options.entries)) =
        insert "query" (.string text) options.entries := by
    intro text options
    rw [Value.resolveEntries_insert, Document.resolve_toValueEntries]
    rfl
  cases call with
  | queryString text options => rw [clause, Value.resolve, hquery, written]
  | multiMatch text fields options =>
    rw [clause, Value.resolve, Value.resolveEntries_insert, hquery, Value.resolve,
      Value.resolveItems_eq_map, List.map_map, written]
    rfl

/-- Options are read in order up to the first that is not known. -/
theorem queryString_object (text : String) (entries : Entries Document) :
    SearchQuery.queryString text (.object entries) =
      match (keys entries).find? (fun key => !queryStringOptions.contains key) with
      | some key => .error (.invalidOption "query_string" key)
      | none => .ok (clause (.queryString text (.object entries))) := by
  rw [← keys_toValueEntries]
  rfl

theorem read_toOption (call : FullText) :
    call.read.toOption = if call.accepts then some call.clause else none := by
  cases call with
  | queryString text options =>
    cases options with
    | object entries =>
      have hknown : (keys entries).find? (fun key => !queryStringOptions.contains key) = none ↔
          (FullText.queryString text (.object entries)).accepts = true := by
        rw [List.find?_eq_none, accepts, List.all_eq_true]
        simp
      rw [read, queryString_object]
      split
      · rename_i hfind
        rw [hfind] at hknown
        exact (if_neg (fun h => nomatch hknown.2 h)).symm
      · rename_i hfind
        exact (if_pos (hknown.1 hfind)).symm
    | _ => rfl
  | multiMatch text fields options => cases options <;> rfl

theorem read_of_accepts {call : FullText} (h : call.accepts = true) :
    call.read = .ok call.clause := by
  have hread := call.read_toOption
  rw [if_pos h] at hread
  cases hown : call.read with
  | ok clause =>
    rw [hown] at hread
    rw [Option.some.inj hread]
  | error error =>
    rw [hown] at hread
    cases hread

theorem read_of_not_accepts {call : FullText} (h : call.accepts = false) :
    ∃ error, call.read = .error error := by
  have hread := call.read_toOption
  rw [h] at hread
  cases hown : call.read with
  | ok clause =>
    rw [hown] at hread
    cases hread
  | error error => exact ⟨error, rfl⟩

theorem refused_of_find? {text key : String} {entries : Entries Document}
    (h : (keys entries).find? (fun key => !queryStringOptions.contains key) = some key) :
    Refused (.queryString text (.object entries)) (.invalidOption "query_string" key) := by
  obtain ⟨hunknown, as, bs, hkeys, hknown⟩ := List.find?_eq_some_iff_append.1 h
  obtain ⟨before, rest, rfl, rfl, hrest⟩ := List.map_eq_append_iff.1 hkeys
  obtain ⟨⟨k, value⟩, after, rfl, rfl, -⟩ := List.map_eq_cons_iff.1 hrest
  refine .option (fun k hk => ?_) ?_
  · simpa using hknown k hk
  · simpa using hunknown

theorem refused_of_read {call : FullText} {error : QueryError} (h : call.read = .error error) :
    call.Refused error := by
  cases call with
  | queryString text options =>
    cases options with
    | null => cases h
    | object entries =>
      rw [read, queryString_object] at h
      split at h
      · rename_i hfind
        obtain rfl := Except.error.inj h
        exact refused_of_find? hfind
      · cases h
    | _ =>
      obtain rfl := Except.error.inj h
      exact .shape nofun nofun
  | multiMatch text fields options =>
    cases options with
    | null | object => cases h
    | _ =>
      obtain rfl := Except.error.inj h
      exact .shape nofun nofun

theorem Refused.read_eq {call : FullText} {error : QueryError} (h : call.Refused error) :
    call.read = .error error := by
  cases h with
  | shape notNull notObject =>
    cases call with
    | queryString text options | multiMatch text fields options =>
      cases options with
      | null => exact absurd rfl notNull
      | object entries => exact absurd rfl (notObject entries)
      | _ => rfl
  | option known unknown =>
    rename_i text key value before after
    have hbefore : (keys before).find? (fun key => !queryStringOptions.contains key) = none := by
      rw [List.find?_eq_none]
      simpa using known
    have hunknown : (!queryStringOptions.contains key) = true := by simpa using unknown
    rw [read, queryString_object, keys_append, keys_cons, List.find?_append, hbefore,
      List.find?_cons, hunknown]
    rfl

theorem read_eq_error_iff {call : FullText} {error : QueryError} :
    call.read = .error error ↔ call.Refused error := ⟨refused_of_read, Refused.read_eq⟩

/-! ## One call -/

/-- What a call makes of a draft. -/
structure Answered (call : FullText) (draft : Draft) (outcome : Outcome Draft) : Prop where
  accepted : outcome.error = none ↔ call.accepts = true
  refused : ∀ error, outcome.error = some error ↔ call.Refused error
  unchanged : outcome.error ≠ none → outcome.state = draft
  layout : call.LaidOut call.written
  /-- No field and no sort criterion changes. -/
  others : outcome.state = { draft with clauses := outcome.state.clauses }
  /-- In a root the clause alone is an entry of `must`. No other clause changes. -/
  entry : draft.isRoot = true → call.accepts = true →
    ∃ item : Value, item.resolve = .object [(call.key, .object call.written)] ∧
      (∀ occur, Clauses.group occur outcome.state.clauses =
        Clauses.group occur draft.clauses ++ if occur = .must then [item] else []) ∧
      (∀ key, key ≠ "bool" → get? key outcome.state.clauses = get? key draft.clauses) ∧
      keys draft.clauses <+: keys outcome.state.clauses
  /-- Elsewhere the clause takes the place of an earlier one of its kind, or it comes last. -/
  bare : draft.isRoot = false → call.accepts = true →
    ∃ clause : Value, clause.resolve = .object call.written ∧
      Placed call.key clause draft.clauses outcome.state.clauses

theorem run_call (call : FullText) (draft : Draft) :
    call.toCall.run draft = .ofExcept draft (call.read.map (draft.addClause call.key ·)) := by
  cases call <;> rw [FullText.toCall, Call.run] <;> rfl

theorem addClause_root {draft : Draft} (hroot : draft.isRoot = true) (key : String)
    (clause : Value) :
    (draft.addClause key clause).clauses =
      draft.clauses.appendToGroup .must (Document.object [(key, clause.resolve)]).toValue := by
  rw [Draft.addClause, if_pos hroot]
  rfl

theorem addClause_bare {draft : Draft} (hgroup : draft.isRoot = false) (key : String)
    (clause : Value) : (draft.addClause key clause).clauses = insert key clause draft.clauses := by
  rw [Draft.addClause, hgroup, if_neg Bool.false_ne_true]
  rfl

theorem answered_of_accepts {call : FullText} (h : call.accepts = true) (draft : Draft) :
    call.Answered draft (.done (draft.addClause call.key call.clause)) where
  accepted := iff_of_true rfl h
  refused error := by
    rw [← read_eq_error_iff, read_of_accepts h]
    exact iff_of_false nofun nofun
  unchanged herror := absurd rfl herror
  layout := call.laidOut_written
  others := by
    simp only [Outcome.done, Draft.addClause]
    split <;> rfl
  entry hroot _ := by
    simp only [Outcome.done, addClause_root hroot, resolve_clause]
    refine ⟨_, Document.resolve_toValue _, fun occur => ?_, fun key hkey => ?_, ?_⟩
    · rw [Clauses.group_appendToGroup]
      simp only [eq_comm]
    · exact get?_update_of_ne hkey _ _
    · exact keys_prefix_update _ _ _
  bare hgroup _ := by
    refine ⟨call.clause, call.resolve_clause, ?_⟩
    simp only [Outcome.done, addClause_bare hgroup]
    exact placed_insert _ _ _

theorem answered (call : FullText) (draft : Draft) :
    call.Answered draft (call.toCall.run draft) := by
  rw [run_call]
  cases haccepts : call.accepts with
  | true =>
    rw [read_of_accepts haccepts]
    exact answered_of_accepts haccepts draft
  | false =>
    obtain ⟨error, herror⟩ := read_of_not_accepts haccepts
    have hrefused : ∀ other, some error = some other ↔ call.Refused other := by
      intro other
      rw [← read_eq_error_iff, herror, Option.some.injEq, Except.error.injEq]
    rw [herror]
    exact {
      accepted := by rw [haccepts]; exact iff_of_false nofun nofun
      refused := hrefused
      unchanged := fun _ => rfl
      layout := call.laidOut_written
      others := rfl
      entry := fun _ h => nomatch haccepts.symm.trans h
      bare := fun _ h => nomatch haccepts.symm.trans h }

theorem edit?_call (call : FullText) :
    call.toCall.edit? = if call.accepts then some (.clause call.key call.clause) else none := by
  have hread : call.toCall.edit? = call.read.toOption.map (.clause call.key) := by
    cases call <;> rfl
  rw [hread, read_toOption]
  split <;> rfl

/-- The last call of a kind that is accepted. -/
def last? (key : String) (calls : List FullText) : Option FullText :=
  (calls.filter (fun call => call.accepts && call.key = key)).getLast?

theorem last?_append (key : String) (first second : List FullText) :
    last? key (first ++ second) = (last? key second).or (last? key first) := by
  rw [last?, List.filter_append, List.getLast?_append]
  rfl

theorem last?_singleton (key : String) (call : FullText) :
    last? key [call] = if call.accepts ∧ call.key = key then some call else none := by
  by_cases h : call.accepts ∧ call.key = key <;> simp [last?, h]

end FullText

def Call.fullText? : Call → Option FullText
  | .queryString text options => some (.queryString text options)
  | .multiMatch text fields options => some (.multiMatch text fields options)
  | _ => none

theorem Call.fullText?_eq_some {call : Call} {full : FullText} (h : call.fullText? = some full) :
    call = full.toCall := by
  cases call with
  | queryString | multiMatch =>
    obtain rfl := Option.some.inj h
    rfl
  | _ => cases h

theorem Call.key?_ne_of_fullText? {call : Call} (h : call.fullText? = none) {key : String}
    (hkey : key ∈ fullTextKeys) (isRoot : Bool) : call.key? isRoot ≠ some key := by
  cases call with
  | queryString | multiMatch => cases h
  | group | aggregate => rintro ⟨⟩; revert hkey; decide
  | _ => nofun

namespace Host

variable {α σ : Type}

def fullText? (host : Host α σ) (step : α) : Option FullText :=
  (host.call? step).bind Call.fullText?

/-- What becomes of the full-text calls of a run whose draft is no root. -/
structure KeepsLast (host : Host α σ) (start : σ) (steps : List α)
    (finished : Entries Document) : Prop where
  /-- The clause is that of the last call of its kind that is accepted. -/
  clause : ∀ key ∈ fullTextKeys, get? key finished =
    (FullText.last? key (steps.filterMap host.fullText?)).map (fun call => .object call.written)
  /-- It stands in the place of the first such call, after the clauses that were there. -/
  place : ∀ before step after call, steps = before ++ step :: after →
    host.fullText? step = some call → call.accepts = true →
    FullText.last? call.key (before.filterMap host.fullText?) = none →
    keys (host.draft (host.reached start before)).clauses ++ [call.key] <+: keys finished

variable {host : Host α σ} {start state : σ} {steps before after : List α} {step : α}
  {call : FullText} {key : String}

theorem call?_of_fullText? (h : host.fullText? step = some call) :
    host.call? step = some call.toCall := by
  obtain ⟨inner, hcall, hfull⟩ := Option.bind_eq_some_iff.1 h
  rw [hcall, inner.fullText?_eq_some hfull]

theorem get?_of_other (h : host.fullText? step = none) (hkey : key ∈ fullTextKeys) (state : σ) :
    get? key (host.draft (host.run step state).state).clauses =
      get? key (host.draft state).clauses := by
  have hfiltered : key ≠ "filtered" := by
    rintro rfl
    revert hkey
    decide
  refine get?_run_of_ne (host.key?_ne hfiltered
    (fun call hcall => call.key?_ne_of_fullText? ?_ hkey _))
  exact Option.bind_eq_none_iff.1 h call hcall

/-- The last call counts, and a call that is refused does not. -/
theorem get?_fullText_run (hgroup : (host.draft state).isRoot = false) (hkey : key ∈ fullTextKeys) :
    get? key (host.draft (host.run step state).state).clauses =
      ((FullText.last? key (host.fullText? step).toList).map FullText.clause).or
        (get? key (host.draft state).clauses) := by
  cases hown : host.fullText? step with
  | none => exact get?_of_other hown hkey state
  | some call =>
    rw [host.run_state, host.edit?_call (call?_of_fullText? hown), call.edit?_call,
      Option.toList_some, FullText.last?_singleton]
    cases haccepts : call.accepts with
    | false => rfl
    | true =>
      simp only [if_true, Option.elim_some, Edit.apply, FullText.addClause_bare hgroup, true_and]
      split
      · rename_i heq
        rw [← heq]
        exact get?_update_self _ _ _
      · rename_i hne
        exact get?_update_of_ne (Ne.symm hne) _ _

theorem get?_fullText_reached (hgroup : (host.draft start).isRoot = false)
    (hkey : key ∈ fullTextKeys) (h : (Outcome.runAll host.run steps start).error = none) :
    get? key (host.draft (host.reached start steps)).clauses =
      ((FullText.last? key (steps.filterMap host.fullText?)).map FullText.clause).or
        (get? key (host.draft start).clauses) := by
  induction steps generalizing start with
  | nil => rfl
  | cons step rest ih =>
    rw [Outcome.runAll, Outcome.andThen_error_eq_none] at h
    rw [reached_cons h.1, ih ((host.isRoot_run step start).trans hgroup) h.2,
      get?_fullText_run hgroup hkey, Outcome.filterMap_cons_toList, FullText.last?_append,
      Option.map_or, Option.or_assoc]

section

variable (hgroup : (host.draft start).isRoot = false)
  (hstart : ∀ key ∈ fullTextKeys, get? key (host.draft start).clauses = none)

include hgroup hstart

/-- The first call of its kind that is accepted adds the clause at the end. -/
theorem keys_fullText_run (hbefore : (Outcome.runAll host.run before start).error = none)
    (hown : host.fullText? step = some call) (haccepts : call.accepts = true)
    (hfirst : FullText.last? call.key (before.filterMap host.fullText?) = none) :
    keys (host.draft (host.run step (host.reached start before)).state).clauses =
      keys (host.draft (host.reached start before)).clauses ++ [call.key] := by
  have hnone : get? call.key (host.draft (host.reached start before)).clauses = none := by
    rw [get?_fullText_reached hgroup call.key_mem hbefore, hfirst, hstart _ call.key_mem]
    rfl
  rw [host.run_state, host.edit?_call (call?_of_fullText? hown), call.edit?_call, if_pos haccepts,
    Option.elim_some, Edit.apply,
    FullText.addClause_bare ((host.isRoot_reached start before).trans hgroup)]
  exact keys_insert_of_get? hnone _

theorem keepsLast (hsound : (host.draft start).Sound)
    (h : (Outcome.runAll host.run steps start).error = none) :
    host.KeepsLast start steps (host.finished start steps) := by
  constructor
  · intro key hkey
    have hfields : get? key (host.draft (host.reached start steps)).allClauses =
        get? key (host.draft (host.reached start steps)).clauses := by
      obtain ⟨kind, hkind, rfl⟩ := kind_of_mem hkey
      refine host.get?_allClauses start steps hsound kind ?_ ?_ <;>
        rcases hkind with rfl | rfl <;> nofun
    rw [finished, Value.get?_resolveEntries, hfields, get?_fullText_reached hgroup hkey h,
      hstart key hkey, Option.or_none, Option.map_map]
    exact congrArg (Option.map · _) (funext FullText.resolve_clause)
  · rintro before step after call rfl hown haccepts hfirst
    rw [← keys_fullText_run hgroup hstart (Outcome.error_of_append h) hown haccepts hfirst]
    exact host.keys_prefix_finished start h

end

end Host

/-! ## Roots -/

/-- The entries of the `must` group in finished clauses. -/
def mustEntries (finished : Entries Document) : List Document :=
  ((get? "bool" finished).bind (fun groups => get? "must" groups.entries)).elim [] Document.items

/-- What becomes of the full-text calls of a run whose draft is a root. -/
structure OwnEntries (calls : List FullText) (finished : Entries Document) : Prop where
  /-- Each call that is accepted has an entry of `must` of its own, in the order of the calls. -/
  entries : ((calls.filter FullText.accepts).map
    (fun call => Document.object [(call.key, .object call.written)])).Sublist (mustEntries finished)
  /-- No clause of its kind stands beside the groups. -/
  bare : ∀ key ∈ fullTextKeys, key ∉ keys finished

theorem Draft.ClausesOf.not_mem_keys {allowed : ClauseKind → Prop} {clauses : Clauses}
    (h : ClausesOf allowed clauses) {kind : ClauseKind} (hkind : ¬ allowed kind) :
    kind.key ∉ keys clauses := by
  intro hmem
  obtain ⟨e, he, hkey⟩ := List.mem_map.1 hmem
  obtain ⟨other, hother, hallowed, -⟩ := h.2 e he
  have hsame : other = kind := ClauseKind.key_injective (hother.symm.trans hkey)
  exact hkind (hsame ▸ hallowed)

theorem sublist_groupEntries (steps : List Step) :
    (((steps.filterMap Step.host.fullText?).filter FullText.accepts).map
      (fun call => Document.object [(call.key, .object call.written)])).Sublist
      (groupEntries true .must steps) := by
  rw [← filterMap_item?]
  induction steps with
  | nil => exact List.nil_sublist _
  | cons step rest ih =>
    rw [Outcome.filterMap_cons_toList, Outcome.filterMap_cons_toList Step.edit?, List.filter_append,
      List.map_append, List.filterMap_append]
    refine List.Sublist.append ?_ ih
    cases hown : Step.host.fullText? step with
    | none => exact List.nil_sublist _
    | some call =>
      have hedit : step.edit? = call.toCall.edit? :=
        Step.host.edit?_call (Host.call?_of_fullText? hown)
      rw [hedit, call.edit?_call]
      cases haccepts : call.accepts with
      | false => simp [haccepts]
      | true => simp [haccepts, Edit.item?, call.resolve_clause]

theorem Document.items_listOf? (items : List Document) :
    (Document.listOf? items).elim [] Document.items = items := by
  cases items <;> rfl

theorem mustEntries_runAll {steps : List Step}
    (h : (Step.runAll steps { isRoot := true }).error = none) :
    mustEntries (Step.runAll steps { isRoot := true }).state.clauseDocument.entries =
      groupEntries true .must steps ++ fieldEntries true .must steps := by
  have hsound := Step.sound_runAll steps (Draft.sound_new true)
  have hmust := hsound.allClauses.get?_group .must
  rw [group_allClauses h] at hmust
  exact (congrArg (Option.elim · [] Document.items) hmust).trans (Document.items_listOf? _)

theorem ownEntries {steps : List Step} (h : (Step.runAll steps { isRoot := true }).error = none) :
    OwnEntries (steps.filterMap Step.host.fullText?)
      (Step.runAll steps { isRoot := true }).state.clauseDocument.entries := by
  constructor
  · rw [mustEntries_runAll h]
    exact (sublist_groupEntries steps).trans (List.sublist_append_left _ _)
  · intro key hkey
    obtain ⟨kind, hkind, rfl⟩ := kind_of_mem hkey
    have hroot : (Step.runAll steps { isRoot := true }).state.isRoot = true :=
      Step.isRoot_runAll _ _
    have hclauses := (Step.sound_runAll steps (Draft.sound_new true)).allClauses
    have hnot : ¬ Draft.Finishes true kind := by
      rcases hkind with rfl | rfl <;> simp [Draft.Finishes, Draft.Stores]
    rw [hroot] at hclauses
    exact (Value.keys_resolveEntries _).symm ▸ hclauses.not_mem_keys hnot

/-- A full-text call is accepted exactly if its options are null or an object, of which a
`query_string` knows all keys, and the clause is the options with the text and the fields in their
places. In a root each accepted call is an entry of `must` of its own. Elsewhere the last one of its
kind counts, in the place of the first. -/
theorem full_text_calls :
    (∀ (call : FullText) (draft : Draft), call.Answered draft (call.toCall.run draft)) ∧
    (∀ steps : List Step, (Step.runAll steps { isRoot := true }).error = none →
      OwnEntries (steps.filterMap Step.host.fullText?)
        (Step.runAll steps { isRoot := true }).state.clauseDocument.entries) ∧
    (∀ steps : List Step, (Step.runAll steps { isRoot := false }).error = none →
      Step.host.KeepsLast { isRoot := false } steps
        (Step.runAll steps { isRoot := false }).state.clauseDocument.entries) ∧
    (∀ (steps : List FilterStep) (d : Document), buildFilter steps = .ok d →
      FilterStep.host.KeepsLast {} steps
        ((get? "filter" d.entries).elim [] Document.entries)) := by
  refine ⟨FullText.answered, fun steps h => ownEntries h, fun steps h => ?_, fun steps d h => ?_⟩
  · rw [Step.runAll_eq] at h
    rw [← Step.finished_eq]
    exact Host.keepsLast rfl (fun _ _ => rfl) (Draft.sound_new false) h
  · have herror := (Outcome.result_eq_ok.1 h).1
    rw [FilterStep.runAll_eq] at herror
    rw [← FilterStep.finished_eq h]
    exact Host.keepsLast rfl (fun _ _ => rfl) (Draft.sound_new false) herror

/-- The second call is refused for its second option and caught. The last one replaces the first in
its place, and in a root all but the refused one have entries of their own. -/
theorem full_text_calls_refused :
    let first : FullText := .queryString "rust" (.object
      [("boost", .null), ("query", .string "go"), ("lenient", .bool true)])
    let refused : FullText := .queryString "rust" (.object
      [("boost", .null), ("fuzzy", .null), ("slop", .null)])
    let fields : FullText := .multiMatch "rust" ["title"] (.object
      [("fields", .null), ("type", .string "phrase")])
    let last : FullText := .queryString "lean" .null
    let steps : List Step :=
      [ .call first.toCall, .attempt (.call refused.toCall), .call fields.toCall,
        .call last.toCall ]
    let narrowing : List FilterStep := [.call first.toCall, .call last.toCall]
    let written : Entries Document :=
      [("fields", .array [.string "title"]), ("type", .string "phrase"), ("query", .string "rust")]
    let finished : Entries Document :=
      [("query_string", .object [("query", .string "lean")]), ("multi_match", .object written)]
    let filter : Document :=
      .object [("filter", .object [("query_string", .object [("query", .string "lean")])])]
    (refused.Refused (.invalidOption "query_string" "fuzzy") ∧
      (refused.toCall.run .group).error = some (.invalidOption "query_string" "fuzzy")) ∧
    ((Step.runAll steps { isRoot := true }).error = none ∧
      OwnEntries [first, refused, fields, last]
        (Step.runAll steps { isRoot := true }).state.clauseDocument.entries) ∧
    ((Step.runAll steps { isRoot := false }).error = none ∧
      (Step.runAll steps { isRoot := false }).state.clauseDocument.entries = finished ∧
      Step.host.KeepsLast { isRoot := false } steps finished) ∧
    (buildFilter narrowing = .ok filter ∧
      FilterStep.host.KeepsLast {} narrowing
        [("query_string", .object [("query", .string "lean")])]) := by
  intro first refused fields last steps narrowing written finished filter
  obtain ⟨hcalls, hroots, hdrafts, hfilters⟩ := full_text_calls
  have hrefused : refused.Refused (.invalidOption "query_string" "fuzzy") :=
    @FullText.Refused.option "rust" "fuzzy" .null [("boost", .null)] [("slop", .null)]
      (by decide) (by decide)
  have hroot : (Step.runAll steps { isRoot := true }).error = none := rfl
  have hdraft : (Step.runAll steps { isRoot := false }).error = none := rfl
  have hfilter : buildFilter narrowing = .ok filter := rfl
  exact ⟨⟨hrefused, ((hcalls refused .group).refused _).2 hrefused⟩, ⟨hroot, hroots steps hroot⟩,
    ⟨hdraft, rfl, hdrafts steps hdraft⟩, hfilter, hfilters narrowing filter hfilter⟩

end SearchQuery
