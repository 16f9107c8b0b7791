import SearchQuery.Proofs.Accumulation
import SearchQuery.Proofs.Groups
import SearchQuery.Proofs.Merging

/-!
# What a field keeps of the arguments of a call

A match keeps its options but for those that have selected its kind. A call with several values adds
an entry of its own, with the values under the field's name and the required count beside them. Both
rules have a gap: `prefix` stays among the options if there is no `phrase`, and a field that is itself
named `minimum_should_match` has its values overwritten by the count.
-/

namespace SearchQuery

open Entries

/-! ## Names under a clause -/

namespace Clauses

/-- What stands for a name in the clause at a key. -/
def under? (key name : String) (clauses : Clauses) : Option Value :=
  (get? key clauses).bind (Value.child? name)

variable {key name other : String}

theorem under?_put_self (key name : String) (value : Value) (clauses : Clauses) :
    under? key name (clauses.put key name value) = some value := by
  rw [under?, put, get?_update_self]
  exact get?_update_self name _ _

theorem under?_put_of_ne (h : other ≠ name) (value : Value) (clauses : Clauses) :
    under? key other (clauses.put key name value) = under? key other clauses := by
  rw [under?, under?, put, get?_update_self]
  refine (get?_update_of_ne h _ _).trans ?_
  cases get? key clauses <;> rfl

end Clauses

/-! ## Options of a match -/

theorem keys_toValueEntries (entries : Entries Document) :
    keys (Document.toValueEntries entries) = keys entries := by
  induction entries with
  | nil => rfl
  | cons entry rest ih => rw [Document.toValueEntries, keys_cons, keys_cons, ih]

/-- Options that are accepted are an object, or null for none. -/
theorem readOptions_eq_ok {clause : String} {options : Document} {read : Entries Value}
    (h : readOptions clause options = .ok read) :
    read = Document.toValueEntries options.entries := by
  cases options with
  | null | object => exact (Except.ok.inj h).symm
  | _ => cases h

namespace MatchKind

variable {options : Entries Value} {text : Value}

/-- The options with the text in the place of a `query` option, or at the end. -/
def withText (text : Value) (options : Entries Value) : Entries Value :=
  if "query" ∈ keys options then
    options.map (fun e => if e.1 = "query" then ("query", text) else e)
  else options ++ [("query", text)]

/-- `prefix` goes only with a `phrase` that is on. -/
def keeps (options : Entries Value) (key : String) : Bool :=
  key ≠ "phrase" ∧ (isOn "phrase" options → key ≠ "prefix")

theorem stored_eq_filter (h : Distinct options) :
    stored text options = (withText text options).filter (fun e => keeps options e.1) := by
  unfold stored withText
  congr 1
  split
  · rename_i hquery
    exact update_of_mem h hquery _
  · rename_i hquery
    exact update_of_not_mem hquery _

theorem mem_keys_stored {key : String} (hkey : key ≠ "query") :
    key ∈ keys (stored text options) ↔ key ∈ keys options ∧ keeps options key := by
  have hinsert : key ∈ keys (insert "query" text options) ↔ key ∈ keys options :=
    mem_keys_update.trans (or_iff_right hkey)
  rw [← hinsert]
  unfold stored keys
  simp only [List.mem_map, List.mem_filter]
  constructor
  · rintro ⟨e, ⟨he, hkept⟩, rfl⟩
    exact ⟨⟨e, he, rfl⟩, hkept⟩
  · rintro ⟨⟨e, he, rfl⟩, hkept⟩
    exact ⟨e, ⟨he, hkept⟩, rfl⟩

end MatchKind

namespace Field

theorem setMatchWith_succeeds_iff (field : Field) (text : Value) (options : Document) :
    (∃ next, field.setMatchWith text options = .ok next) ↔
      options = .null ∨ ∃ entries, options = .object entries := by
  cases options with
  | null => exact iff_of_true ⟨_, setMatchWith_of_ok rfl⟩ (Or.inl rfl)
  | object entries => exact iff_of_true ⟨_, setMatchWith_of_ok rfl⟩ (Or.inr ⟨entries, rfl⟩)
  | bool | number | string | array =>
    refine iff_of_false ?_ (by simp)
    rintro ⟨next, hnext⟩
    rw [setMatchWith_of_error rfl] at hnext
    cases hnext

/-- A match takes any object as its options, or null for none. It keeps the options in their order,
with the text among them and without `phrase`. `prefix` is taken out only if `phrase` is on, so no
option that selects is left exactly if `phrase` is on or there was no `prefix`. Nothing else about
the field changes. -/
theorem match_keeps_options (field : Field) (text : Value) {options : Document}
    (hdistinct : Distinct options.entries) :
    ((∃ next, field.setMatchWith text options = .ok next) ↔
      options = .null ∨ ∃ entries, options = .object entries) ∧
    ∀ next, field.setMatchWith text options = .ok next →
      let given := Document.toValueEntries options.entries
      let key := (MatchKind.asked given).key
      ∃ kept, next.operators.under? key field.name = some (.object kept) ∧
        kept = (MatchKind.withText text given).filter (fun e => MatchKind.keeps given e.1) ∧
        (("phrase" ∉ keys kept ∧ "prefix" ∉ keys kept) ↔
          MatchKind.isOn "phrase" given ∨ "prefix" ∉ keys given) ∧
        (∀ name, name ≠ field.name →
          next.operators.under? key name = field.operators.under? key name) ∧
        (∀ other, other ≠ key → get? other next.operators = get? other field.operators) ∧
        next = { field with operators := next.operators } := by
  refine ⟨setMatchWith_succeeds_iff field text options, fun next h => ?_⟩
  intro given key
  obtain ⟨read, hread⟩ : ∃ read, readOptions "match" options = .ok read := by
    cases hread : readOptions "match" options with
    | error error =>
      rw [setMatchWith_of_error hread] at h
      cases h
    | ok read => exact ⟨read, rfl⟩
  obtain rfl := readOptions_eq_ok hread
  rw [setMatchWith_of_ok hread, MatchKind.select_insert] at h
  obtain rfl := Except.ok.inj h
  have hgiven : Distinct given := by
    unfold Distinct
    rwa [keys_toValueEntries]
  refine ⟨MatchKind.stored text given, Clauses.under?_put_self _ _ _ _,
    MatchKind.stored_eq_filter hgiven, ?_, fun name hname => Clauses.under?_put_of_ne hname _ _,
    fun other hother => get?_update_of_ne hother _ _, rfl⟩
  rw [MatchKind.mem_keys_stored (by decide), MatchKind.mem_keys_stored (by decide)]
  cases hphrase : MatchKind.isOn "phrase" given <;> simp [MatchKind.keeps, hphrase]

/-- The text takes the place of the `query` option, and what was stored for the field before goes. -/
theorem match_keeps_options_phrase :
    let field : Field :=
      { name := "title"
        operators := [("match_phrase", .object [("title", .null), ("body", .null)])] }
    let options : Document := .object
      [ ("prefix", .bool false), ("query", .string "old"), ("phrase", .string "exact"),
        ("boost", .string "2") ]
    let next : Field := { field with
      operators :=
        [ ("match_phrase", .object
            [ ("title", .object [("query", .string "rust"), ("boost", .string "2")]),
              ("body", .null) ]) ] }
    let kept : Entries Value := [("query", .string "rust"), ("boost", .string "2")]
    Distinct options.entries ∧ field.setMatchWith (.string "rust") options = .ok next ∧
    next.operators.under? "match_phrase" "title" = some (.object kept) ∧
    "phrase" ∉ keys kept ∧ "prefix" ∉ keys kept ∧
    next.operators.under? "match_phrase" "body" = some .null := by
  intro field options next kept
  have hdistinct : Distinct options.entries := by decide
  have hnext : field.setMatchWith (.string "rust") options = .ok next := rfl
  obtain ⟨-, hkeeps⟩ := match_keeps_options field (.string "rust") hdistinct
  obtain ⟨stored, hstored, hkept, hfree, hothers, -⟩ := hkeeps next hnext
  obtain rfl : stored = kept := hkept
  obtain ⟨hphrase, hprefix⟩ := hfree.2 (Or.inl rfl)
  exact ⟨hdistinct, hnext, hstored, hphrase, hprefix, hothers "body" (by decide)⟩

/-- Without `phrase` the `prefix` option selects nothing, and it is stored with the others. -/
theorem match_keeps_prefix :
    let field : Field := { name := "title" }
    let options : Document := .object [("prefix", .bool true)]
    let kept : Entries Value := [("prefix", .bool true), ("query", .string "rust")]
    let next : Field := { field with operators := [("match", .pair "title" (.object kept))] }
    field.setMatchWith (.string "rust") options = .ok next ∧
      next.operators.under? "match" "title" = some (.object kept) ∧ "prefix" ∈ keys kept :=
  ⟨rfl, rfl, by decide⟩

end Field

/-! ## Entries of a terms list -/

theorem Value.resolve_ofUInt64 (n : UInt64) :
    (Value.ofUInt64 n).resolve = .number (.ofUInt64 n) := by
  unfold Value.ofUInt64
  split
  · rename_i h
    rw [Value.resolve, Number.ofInt64, Number.ofUInt64]
    congr 2
    exact Int64.toInt_ofNat_of_lt h
  · rfl

namespace FieldStep

/-- The values of a call that takes several, and how many of them are required. -/
def several? : FieldStep → Option (List Value × Nat)
  | .matchAll values => some (values, values.length)
  | .matchAny values => some (values, 1)
  | .matchAtLeast values minimum => some (values, minimum.toNat)
  | .attempt step => step.several?
  | _ => none

/-- The steps hand over one entry for each call with several values, in the order of the calls. -/
theorem operands_terms (name : String) (steps : List FieldStep) :
    Clauses.operands name .terms steps = (steps.filterMap several?).map (fun call =>
      termsEntry name call.1 (.ofNat call.2)) := by
  unfold Clauses.operands givenTo
  rw [List.filterMap_filterMap, List.map_filterMap]
  congr 1
  funext step
  induction step with
  | attempt step ih => exact ih
  | matchAtLeast values minimum => simp [operand?, several?]
  | matchingWith text options =>
    rw [operand?]
    cases (readOptions "match" options).toOption <;> rfl
  | _ => rfl

end FieldStep

/-- The finished entry of a call. In a field named `minimum_should_match` there is no place for the
values beside the count. -/
def Document.IsTermsEntry (name : String) (call : List Value × Nat) (entry : Document) : Prop :=
  ∃ inRange, entry = .object
    ((if name = "minimum_should_match" then [] else [(name, .array (call.1.map Value.resolve))]) ++
      [("minimum_should_match", .number (.int call.2 inRange))])

/-- All values of the call stand under the name. -/
def Document.HoldsValues (name : String) (call : List Value × Nat) (entry : Document) : Prop :=
  get? name entry.entries = some (.array (call.1.map Value.resolve))

theorem isTermsEntry_resolve (name : String) {call : List Value × Nat}
    (h : call.2 < 0x10000000000000000) :
    (termsEntry name call.1 (.ofNat call.2)).resolve.IsTermsEntry name call := by
  have hcount : (Value.ofUInt64 (.ofNat call.2)).resolve =
      .number (.int call.2 (by omega)) := by
    rw [Value.resolve_ofUInt64, Number.ofUInt64]
    congr 2
    exact congrArg Int.ofNat (UInt64.toNat_ofNat_of_lt h)
  refine ⟨by omega, ?_⟩
  rw [termsEntry, Value.resolve, Value.resolveEntries_insert, hcount]
  split
  · rename_i hname
    simp [hname, Value.resolveEntries, Entries.insert, update]
  · rename_i hname
    simp [hname, Value.resolveEntries, Value.resolve, Value.resolveItems_eq_map, Entries.insert,
      update]

theorem Document.IsTermsEntry.holdsValues_iff {name : String} {call : List Value × Nat}
    {entry : Document} (h : entry.IsTermsEntry name call) :
    entry.HoldsValues name call ↔ name ≠ "minimum_should_match" := by
  obtain ⟨inRange, rfl⟩ := h
  unfold HoldsValues
  by_cases hname : name = "minimum_should_match" <;> simp [hname, Document.entries, get?_cons]

namespace Field

theorem get?_terms_payload (name : String) (occur : Option Occur) (steps : List FieldStep) :
    get? "terms" (Value.resolveEntries
        (FieldStep.runAll steps { name := name, occur := occur }).state.payload) =
      Document.listOf? (((FieldStep.taken steps).filterMap FieldStep.several?).map (fun call =>
        (termsEntry name call.1 (.ofNat call.2)).resolve)) := by
  have hop : Operator.terms ≠ .range := nofun
  have hterms := Clauses.get?_accumulated hop name (FieldStep.taken steps)
  rw [Operator.key, FieldStep.operands_terms] at hterms
  rw [Value.get?_resolveEntries, payload_runAll, hterms]
  cases (FieldStep.taken steps).filterMap FieldStep.several? with
  | nil => rfl
  | cons call rest =>
    rw [if_neg (by simp), Option.map_some, Operator.content, Value.resolve,
      Value.resolveItems_eq_map, List.map_map]
    rfl

/-- The finished `terms` list has an entry for each call with several values, in the order of the
calls, up to a failure that is not caught. The entry holds the count that the call requires, and all
its values, unless the field is named as the count is. Counts are words of 64 bits, and no list of
values is longer than such a word can tell. -/
theorem terms_keep_calls (name : String) (occur : Option Occur) (steps : List FieldStep)
    (hcount : ∀ step ∈ steps, ∀ call ∈ step.several?, call.2 < 0x10000000000000000) :
    let calls := (FieldStep.taken steps).filterMap FieldStep.several?
    let field := (FieldStep.runAll steps { name := name, occur := occur }).state
    ∃ entries : List Document,
      get? "terms" (Value.object field.payload).resolve.entries = Document.listOf? entries ∧
      entries.length = calls.length ∧
      ∀ (k : Nat) (call : List Value × Nat) (entry : Document),
        calls[k]? = some call → entries[k]? = some entry →
          entry.IsTermsEntry name call ∧
          (entry.HoldsValues name call ↔ name ≠ "minimum_should_match") := by
  intro calls field
  refine ⟨_, get?_terms_payload name occur steps, List.length_map .., ?_⟩
  intro k call entry hcall hentry
  rw [List.getElem?_map, hcall] at hentry
  obtain rfl := Option.some.inj hentry
  obtain ⟨step, hstep, hown⟩ := List.mem_filterMap.1 (List.mem_of_getElem? hcall)
  have hstep : step ∈ steps := (List.takeWhile_sublist _).subset hstep
  have hisEntry := isTermsEntry_resolve name (hcount step hstep call hown)
  exact ⟨hisEntry, hisEntry.holdsValues_iff⟩

/-- Calls before and after a failure that is not caught, with a count above all signed numbers. -/
theorem terms_keep_calls_failing :
    let steps : List FieldStep :=
      [ .matchAtLeast [.null, .string "a"] 0xFFFFFFFFFFFFFFFF,
        .attempt (.matchingWith .null (.bool true)), .matchAll [], .route .should,
        .matchingWith .null (.bool true), .matchAny [.null] ]
    let field := (FieldStep.runAll steps { name := "tags" }).state
    (∀ step ∈ steps, ∀ call ∈ step.several?, call.2 < 0x10000000000000000) ∧
    ∃ entries : List Document,
      get? "terms" (Value.object field.payload).resolve.entries = Document.listOf? entries ∧
      entries.length = 2 ∧
      ∀ entry, entries[0]? = some entry →
        entry.IsTermsEntry "tags" ([.null, .string "a"], 0xFFFFFFFFFFFFFFFF) ∧
        entry.HoldsValues "tags" ([.null, .string "a"], 0xFFFFFFFFFFFFFFFF) := by
  intro steps field
  have hcount : ∀ step ∈ steps, ∀ call ∈ step.several?, call.2 < 0x10000000000000000 := by
    simp [steps, FieldStep.several?]
  obtain ⟨entries, hterms, hlength, heach⟩ := terms_keep_calls "tags" none steps hcount
  refine ⟨hcount, entries, hterms, hlength, fun entry hentry => ?_⟩
  obtain ⟨hisEntry, hvalues⟩ := heach 0 _ entry rfl hentry
  exact ⟨hisEntry, hvalues.2 (by decide)⟩

/-- A field that is named as the count is loses the values of its calls. -/
theorem terms_lose_values :
    let name := "minimum_should_match"
    let values : List Value := [.string "a", .string "b"]
    let field := (FieldStep.runAll [.matchAll values] { name := name }).state
    let entry : Document := .object [(name, .number (.ofUInt64 2))]
    (Value.object field.payload).resolve = .object [("terms", .array [entry])] ∧
      ¬ entry.HoldsValues name (values, 2) := by
  refine ⟨rfl, ?_⟩
  unfold Document.HoldsValues
  nofun

end Field

end SearchQuery
