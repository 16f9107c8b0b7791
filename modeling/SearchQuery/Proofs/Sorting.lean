import Mathlib.Data.List.Forall2
import SearchQuery.Proofs.Host
import SearchQuery.Proofs.Interleaving

/-!
# Sort calls

What criteria ask to be sent is said here by itself: an order by its name in any letter case, a
direction, or an object as it stands. A call is refused if its criteria ask for nothing. What the
calls that are accepted ask for is the `sort` entry of a root, and they reach nothing else.
-/

namespace SearchQuery

/-! ## What criteria ask for -/

namespace SortOrder

def direction : SortOrder → Int
  | .asc => 1
  | .desc => -1

/-- The character is the letter, in lower or in upper case. -/
def Writes (c letter : Char) : Prop := c = letter ∨ c = letter.toUpper

/-- The text is the name of the order, with any of its letters in upper case. -/
def Spelled (order : SortOrder) (text : String) : Prop :=
  List.Forall₂ Writes text.toList order.name.toList

inductive Means (order : SortOrder) : Document → Prop where
  | text {text : String} (spelled : order.Spelled text) : Means order (.string text)
  | direction {inRange} : Means order (.number (.int order.direction inRange))

end SortOrder

/-- The second document is what is sent for the first. -/
inductive Asks : Document → Document → Prop where
  | object {entries : List (String × Document)} : Asks (.object entries) (.object entries)
  | order {criteria : Document} {order : SortOrder} (means : order.Means criteria) :
      Asks criteria (.object [("order", .string order.name)])

/-- The error for criteria that ask for nothing. It holds them. -/
def sortRefusal : Document → QueryError
  | .string text => .usage (.sortOrder text)
  | .number n => .usage (.sortDirection n)
  | criteria => .usage (.sortCriteria criteria)

theorem kind_sortRefusal (criteria : Document) : (sortRefusal criteria).kind = .usage := by
  cases criteria <;> rfl

/-! ## Letter case -/

theorem toNat_toLower (c : Char) :
    c.toLower.toNat = if 65 ≤ c.toNat ∧ c.toNat ≤ 90 then c.toNat + 32 else c.toNat := by
  unfold Char.toLower
  split
  all_goals
    rename_i h
    simp only [ge_iff_le, UInt32.le_iff_toNat_le, UInt32.reduceToNat, Char.reduceVal,
      Char.toNat_val] at h
  · rw [if_pos h, Char.toNat, UInt32.toNat_add, Char.toNat_val]
    simp only [Char.reduceVal, UInt32.reduceSub, UInt32.reduceToNat, Nat.reducePow]
    omega
  · rw [if_neg h]

theorem toNat_toUpper (c : Char) :
    c.toUpper.toNat = if 97 ≤ c.toNat ∧ c.toNat ≤ 122 then c.toNat - 32 else c.toNat := by
  unfold Char.toUpper
  split
  all_goals
    rename_i h
    simp only [UInt32.le_iff_toNat_le, UInt32.reduceToNat, Char.reduceVal, Char.toNat_val] at h
  · rw [if_pos h, Char.toNat, UInt32.toNat_add, Char.toNat_val]
    simp only [Char.reduceVal, UInt32.reduceSub, UInt32.reduceToNat, Nat.reducePow]
    omega
  · rw [if_neg h]

theorem isLower_iff (c : Char) : c.isLower = true ↔ 97 ≤ c.toNat ∧ c.toNat ≤ 122 := by
  change (decide (97 ≤ c.val) && decide (c.val ≤ 122)) = true ↔ _
  simp [UInt32.le_iff_toNat_le]

/-- Only a letter of ASCII folds to one. -/
theorem toLower_eq_iff {c letter : Char} (h : letter.isLower = true) :
    c.toLower = letter ↔ SortOrder.Writes c letter := by
  rw [isLower_iff] at h
  unfold SortOrder.Writes
  rw [← Char.toNat_inj, ← Char.toNat_inj, ← Char.toNat_inj, toNat_toLower, toNat_toUpper, if_pos h]
  split <;> omega

theorem map_toLower_eq_iff {cs letters : List Char}
    (h : ∀ letter ∈ letters, letter.isLower = true) :
    cs.map Char.toLower = letters ↔ List.Forall₂ SortOrder.Writes cs letters := by
  induction letters generalizing cs with
  | nil => rw [List.map_eq_nil_iff, List.forall₂_nil_right_iff]
  | cons letter rest ih =>
    rw [List.forall_mem_cons] at h
    simp only [List.map_eq_cons_iff, List.forall₂_cons_right_iff, toLower_eq_iff h.1, ih h.2]
    grind

namespace SortOrder

theorem toLower_eq_name_iff {order : SortOrder} {text : String} :
    text.toLower = order.name ↔ order.Spelled text := by
  have hletters : ∀ letter ∈ order.name.toList, letter.isLower = true := by
    cases order <;> simp [name, isLower_iff]
  have hfold : text.toLower.toList = text.toList.map Char.toLower := String.toList_map
  rw [← String.toList_inj, hfold]
  exact map_toLower_eq_iff hletters

theorem ofText?_eq_some_iff {text : String} {order : SortOrder} :
    ofText? text = some order ↔ order.Spelled text := by
  rw [← toLower_eq_name_iff]
  unfold ofText?
  cases order <;> grind [name]

theorem ofNumber?_eq_some_iff {n : Number} {order : SortOrder} :
    ofNumber? n = some order ↔ ∃ inRange, n = .int order.direction inRange := by
  cases n with
  | float x finite =>
    have hnone : ofNumber? (.float x finite) = none := rfl
    rw [hnone]
    refine iff_of_false (Option.some_ne_none _).symm ?_
    rintro ⟨_, h⟩
    cases h
  | int n inRange =>
    have hnumber : (∃ h, Number.int n inRange = .int order.direction h) ↔ n = order.direction := by
      constructor
      · rintro ⟨_, heq⟩
        exact Number.int.inj heq
      · rintro rfl
        exact ⟨inRange, rfl⟩
    rw [hnumber, ofNumber?]
    clear hnumber inRange
    cases order <;> grind [direction]

end SortOrder

/-! ## Criteria that are accepted and refused -/

theorem sortCriterion_toOption {criteria d : Document} :
    (sortCriterion criteria).toOption.map Value.resolve = some d ↔ Asks criteria d := by
  constructor
  · intro h
    obtain ⟨criterion, hcriterion, rfl⟩ := mem_toOption_map.1 h
    unfold sortCriterion at hcriterion
    split at hcriterion
    · obtain rfl := Except.ok.inj hcriterion
      rw [Value.resolve, Document.resolve_toValueEntries]
      exact .object
    · split at hcriterion
      · rename_i order htext
        obtain rfl := Except.ok.inj hcriterion
        exact .order (.text (SortOrder.ofText?_eq_some_iff.1 htext))
      · cases hcriterion
    · split at hcriterion
      · rename_i order hnumber
        obtain rfl := Except.ok.inj hcriterion
        obtain ⟨inRange, rfl⟩ := SortOrder.ofNumber?_eq_some_iff.1 hnumber
        exact .order .direction
      · cases hcriterion
    · cases hcriterion
  · intro h
    cases h with
    | object =>
      rw [sortCriterion, Except.toOption, Option.map_some, Value.resolve,
        Document.resolve_toValueEntries]
    | order means =>
      cases means with
      | text spelled =>
        rw [sortCriterion, SortOrder.ofText?_eq_some_iff.2 spelled]
        rfl
      | @direction inRange =>
        have hnumber := SortOrder.ofNumber?_eq_some_iff.2 ⟨inRange, rfl⟩
        rw [sortCriterion, hnumber]
        rfl

theorem sortCriterion_eq_error {criteria : Document} {error : QueryError}
    (h : sortCriterion criteria = .error error) : error = sortRefusal criteria := by
  cases criteria with
  | object => cases h
  | string text =>
    rw [sortCriterion] at h
    split at h
    · cases h
    · exact (Except.error.inj h).symm
  | number n =>
    rw [sortCriterion] at h
    split at h
    · cases h
    · exact (Except.error.inj h).symm
  | null | bool | array => exact (Except.error.inj h).symm

/-- What becomes of a sort call on a draft. -/
structure SortAnswered (field : String) (criteria : Document) (draft : Draft)
    (outcome : Outcome Draft) : Prop where
  accepted : outcome.error = none ↔ ∃ d, Asks criteria d
  refused : ∀ error, outcome.error = some error ↔
    (∀ d, ¬ Asks criteria d) ∧ error = sortRefusal criteria
  usage : ∀ error, outcome.error = some error → error.kind = .usage
  /-- The criterion comes last. -/
  stored : ∀ d, Asks criteria d →
    ∃ criterion, criterion.resolve = d ∧ outcome.state = draft.addSort field criterion
  unchanged : outcome.error ≠ none → outcome.state = draft

theorem sortAnswered (field : String) (criteria : Document) (draft : Draft) :
    SortAnswered field criteria draft ((Call.sort field criteria).run draft) := by
  have hasks := @sortCriterion_toOption criteria
  rw [Call.run]
  cases hcriterion : sortCriterion criteria with
  | ok criterion =>
    rw [hcriterion] at hasks
    have hown : ∀ d, Asks criteria d ↔ criterion.resolve = d :=
      fun d => hasks.symm.trans (by simp [Except.toOption])
    exact
      { accepted := iff_of_true rfl ⟨_, (hown _).2 rfl⟩
        refused := fun _ => iff_of_false (Option.some_ne_none _).symm
          (fun h => h.1 _ ((hown _).2 rfl))
        usage := fun _ h => nomatch (h : none = some _)
        stored := fun d hd => ⟨criterion, (hown d).1 hd, rfl⟩
        unchanged := fun h => absurd rfl h }
  | error error =>
    rw [hcriterion] at hasks
    have hnone : ∀ d, ¬ Asks criteria d := fun d hd => nomatch hasks.2 hd
    obtain rfl := sortCriterion_eq_error hcriterion
    exact
      { accepted := iff_of_false (Option.some_ne_none _) (fun ⟨d, hd⟩ => hnone d hd)
        refused := fun error =>
          ⟨fun h => ⟨hnone, (Option.some.inj h).symm⟩, fun h => congrArg some h.2.symm⟩
        usage := fun error h => Option.some.inj h ▸ kind_sortRefusal criteria
        stored := fun d hd => absurd hd (hnone d)
        unchanged := fun _ => rfl }

/-! ## The steps of a run -/

namespace Outcome

variable {α κ σ τ : Type} {run : α → σ → Outcome σ}

/-- The steps that a run takes: all up to the first that fails, and that one. -/
def tried (run : α → σ → Outcome σ) : List α → σ → List α
  | [], _ => []
  | step :: rest, state =>
    match (run step state).error with
    | some _ => [step]
    | none => step :: tried run rest (run step state).state

/-- A list to which each step adds at most one item gets the items of the steps taken. -/
theorem list_runAll (list : σ → List τ) {item? : α → Option τ}
    (hstep : ∀ step state, list (run step state).state = list state ++ (item? step).toList)
    (steps : List α) (state : σ) :
    list (runAll run steps state).state =
      list state ++ (tried run steps state).filterMap item? := by
  induction steps generalizing state with
  | nil => exact (List.append_nil _).symm
  | cons step rest ih =>
    rw [runAll, tried]
    cases herror : (run step state).error with
    | some error =>
      rw [andThen_of_error herror, hstep, filterMap_cons_toList]
      simp
    | none => rw [andThen_state herror, ih, hstep, filterMap_cons_toList, List.append_assoc]

/-- Both ended in the same error, or the second in none, in states whose parts are the same but for
one. -/
def SameBut (part : κ → σ → τ) (k : κ) (first second : Outcome σ) : Prop :=
  (second.error = none ∨ second.error = first.error) ∧
    ∀ other ≠ k, part other second.state = part other first.state

/-- Steps of one kind can be left out. All other parts of the state become the same. -/
theorem Separates.runAll_without [DecidableEq κ] {kind : α → κ} {part : κ → σ → τ}
    (h : Separates run kind part) {k : κ} {steps : List α} {first second : σ}
    (hparts : ∀ other ≠ k, part other first = part other second) :
    SameBut part k (runAll run steps first)
      (runAll run ((tried run steps first).filter (kind · ≠ k)) second) := by
  induction steps generalizing first second with
  | nil => exact ⟨Or.inl rfl, fun other hother => (hparts other hother).symm⟩
  | cons step rest ih =>
    by_cases hkind : kind step = k
    · -- The step is left out. It changed only the part of its own kind.
      have hnext : ∀ other ≠ k, part other (run step first).state = part other second :=
        fun other hother => (h.frame (fun heq => hother (heq.symm.trans hkind)) first).trans
          (hparts other hother)
      rw [runAll, tried]
      cases herror : (run step first).error with
      | some error =>
        rw [List.filter_cons_of_neg (by simp [hkind]), andThen_of_error herror]
        exact ⟨Or.inl rfl, fun other hother => (hnext other hother).symm⟩
      | none =>
        rw [List.filter_cons_of_neg (by simp [hkind]), SameBut, andThen_error herror,
          andThen_state herror]
        exact ih hnext
    · have hown := hparts (kind step) hkind
      have hsame : (run step second).error = (run step first).error := h.error_congr hown.symm
      have hnext : ∀ other ≠ k,
          part other (run step first).state = part other (run step second).state := by
        intro other hother
        by_cases heq : kind step = other
        · subst heq
          exact h.state_congr hown
        · rw [h.frame heq, h.frame heq]
          exact hparts other hother
      rw [runAll, tried]
      cases herror : (run step first).error with
      | some error =>
        rw [List.filter_cons_of_pos (by simp [hkind]), andThen_of_error herror, List.filter_nil,
          runAll, andThen_of_error (hsame.trans herror)]
        exact ⟨Or.inr hsame, fun other hother => (hnext other hother).symm⟩
      | none =>
        have hgoes := hsame.trans herror
        rw [List.filter_cons_of_pos (by simp [hkind]), runAll, SameBut, andThen_error herror,
          andThen_state herror, andThen_error hgoes, andThen_state hgoes]
        exact ih hnext

/-- The part of the kind that is left out stays as it was. -/
theorem Separates.runAll_apart [DecidableEq κ] {kind : α → κ} {part : κ → σ → τ}
    (h : Separates run kind part) (k : κ) (steps : List α) (state : σ) :
    let left := runAll run ((tried run steps state).filter (kind · ≠ k)) state
    SameBut part k (runAll run steps state) left ∧ part k left.state = part k state := by
  refine ⟨h.runAll_without (fun _ _ => rfl), ?_⟩
  refine runAll_induction (P := fun next => part k next = part k state) rfl ?_
  intro step hstep next hnext
  have hkind : kind step ≠ k := of_decide_eq_true (List.mem_filter.1 hstep).2
  exact (h.frame hkind next).trans hnext

end Outcome

/-! ## The sort calls of a run -/

def Call.sort? : Call → Option (String × Document)
  | .sort key criteria => some (key, criteria)
  | _ => none

/-- The entries that are sent for sort calls: one for each call that is accepted, in the order of
the calls. -/
inductive SortEntries : List (String × Document) → List Document → Prop where
  | nil : SortEntries [] []
  | accepted {field : String} {criteria d : Document} {calls : List (String × Document)}
      {entries : List Document} (asks : Asks criteria d) (rest : SortEntries calls entries) :
      SortEntries ((field, criteria) :: calls) (.object [(field, d)] :: entries)
  | refused {field : String} {criteria : Document} {calls : List (String × Document)}
      {entries : List Document} (asksNothing : ∀ d, ¬ Asks criteria d)
      (rest : SortEntries calls entries) : SortEntries ((field, criteria) :: calls) entries

namespace Host

variable {α σ : Type} (host : Host α σ)

/-- The field and the criteria of a sort call, perhaps caught. -/
def sort? (step : α) : Option (String × Document) := (host.call? step).bind Call.sort?

/-- The sort calls that a run makes. -/
def sorts (start : σ) (steps : List α) : List (String × Document) :=
  (Outcome.tried host.run steps start).filterMap host.sort?

/-- The steps that a run takes, without its sort calls. -/
def unsorted (start : σ) (steps : List α) : List α :=
  (Outcome.tried host.run steps start).filter (fun step => (host.sort? step).isNone)

/-- The sort calls of a run reach only the sort criteria of the draft: without them it ends in the
same error or in none, and all else becomes the same. -/
structure SortsApart (start : σ) (steps : List α) : Prop where
  error : (Outcome.runAll host.run (host.unsorted start steps) start).error = none ∨
    (Outcome.runAll host.run (host.unsorted start steps) start).error =
      (Outcome.runAll host.run steps start).error
  reached : host.reached start (host.unsorted start steps) =
    host.setDraft { host.draft (host.reached start steps) with sort := (host.draft start).sort }
      (host.reached start steps)

end Host

theorem Call.kind_eq_sort_iff (call : Call) : call.kind = .sort ↔ call.sort?.isNone = false := by
  cases call <;> simp [kind, sort?]

theorem Step.kind_eq_sort_iff (step : Step) :
    step.kind = .sort ↔ (Step.host.sort? step).isNone = false := by
  cases step with
  | call inner => exact inner.kind_eq_sort_iff
  | filter => exact iff_of_false nofun nofun
  | attempt inner => exact inner.kind_eq_sort_iff

theorem FilterStep.kind_eq_sort_iff (step : FilterStep) :
    step.kind = .narrowing .sort ↔ (FilterStep.host.sort? step).isNone = false := by
  cases step with
  | call inner => exact FilterStepKind.narrowing.injEq _ _ ▸ inner.kind_eq_sort_iff
  | filter | draftFilter | query => exact iff_of_false nofun nofun
  | attempt inner => exact inner.kind_eq_sort_iff

/-- What `found` finds nothing in are the steps of all other kinds. -/
theorem filter_isNone_eq {α κ τ : Type} [DecidableEq κ] {kind : α → κ} {k : κ}
    {found : α → Option τ} (h : ∀ step, kind step = k ↔ (found step).isNone = false)
    (steps : List α) :
    steps.filter (fun step => (found step).isNone) = steps.filter (kind · ≠ k) := by
  refine List.filter_congr (fun step _ => ?_)
  rw [Bool.eq_iff_iff]
  simp [h step]

theorem Step.unsorted_eq (draft : Draft) (steps : List Step) : Step.host.unsorted draft steps =
    (Outcome.tried Step.run steps draft).filter (Step.kind · ≠ .sort) :=
  filter_isNone_eq Step.kind_eq_sort_iff _

theorem FilterStep.unsorted_eq (filter : Filter) (steps : List FilterStep) :
    FilterStep.host.unsorted filter steps =
      (Outcome.tried FilterStep.run steps filter).filter
        (FilterStep.kind · ≠ .narrowing .sort) :=
  filter_isNone_eq FilterStep.kind_eq_sort_iff _

theorem Step.sortsApart (draft : Draft) (steps : List Step) :
    Step.host.SortsApart draft steps := by
  have hrun := Step.separates.runAll_apart .sort steps draft
  rw [← Step.unsorted_eq] at hrun
  obtain ⟨⟨herror, hparts⟩, hsort⟩ := hrun
  refine ⟨herror, Draft.eq_of_parts (fun kind => ?_)⟩
  cases kind with
  | declaration | clause => exact hparts _ nofun
  | sort =>
    have hroot := Step.host.isRoot_reached draft steps
    exact hsort.trans (congrArg (fun isRoot => ({ isRoot, sort := draft.sort } : Draft)) hroot.symm)

theorem FilterStep.sortsApart (filter : Filter) (steps : List FilterStep) :
    FilterStep.host.SortsApart filter steps := by
  have hrun := FilterStep.separates.runAll_apart (.narrowing .sort) steps filter
  rw [← FilterStep.unsorted_eq] at hrun
  obtain ⟨⟨herror, hparts⟩, hsort⟩ := hrun
  refine ⟨herror, Filter.eq_of_parts (fun kind => ?_)⟩
  cases kind with
  | query => exact hparts _ nofun
  | narrowing kind =>
    cases kind with
    | declaration | clause => exact hparts _ nofun
    | sort =>
      have hroot := FilterStep.host.isRoot_reached filter steps
      exact hsort.trans (congrArg (fun isRoot =>
        ({ draft := { isRoot, sort := filter.draft.sort } } : Filter)) hroot.symm)

/-! ## What is sent -/

/-- What a call is accepted with. -/
def accepted? (call : String × Document) : Option (String × Value) :=
  (sortCriterion call.2).toOption.map (fun criterion => (call.1, criterion))

/-- The entries of a draft's sort criteria. -/
def Draft.sortItems (draft : Draft) : List Document :=
  draft.sort.map (fun entry => .object [(entry.1, entry.2.resolve)])

theorem Step.sortCall?_eq (step : Step) :
    step.sortCall? = (Step.host.sort? step).bind accepted? := by
  cases step with
  | call inner => cases inner <;> rfl
  | filter => rfl
  | attempt inner => exact inner.sortCall?_eq

theorem Step.sort_run (step : Step) (draft : Draft) :
    (step.run draft).state.sort = draft.sort ++ ((Step.host.sort? step).bind accepted?).toList := by
  rw [← step.sortCall?_eq, ← step.sort?_edit?, step.run_state]
  cases step.edit? with
  | none => exact (List.append_nil _).symm
  | some edit => exact edit.sort_apply draft

theorem sortEntries_accepted (calls : List (String × Document)) : SortEntries calls
    ((calls.filterMap accepted?).map (fun entry => .object [(entry.1, entry.2.resolve)])) := by
  induction calls with
  | nil => exact .nil
  | cons call rest ih =>
    obtain ⟨field, criteria⟩ := call
    have hasks := @sortCriterion_toOption criteria
    cases hcriterion : (sortCriterion criteria).toOption with
    | none =>
      have hnone : accepted? (field, criteria) = none := by rw [accepted?, hcriterion]; rfl
      rw [List.filterMap_cons_none hnone]
      refine .refused (fun d hd => ?_) ih
      rw [hcriterion] at hasks
      exact nomatch hasks.2 hd
    | some criterion =>
      have hsome : accepted? (field, criteria) = some (field, criterion) := by
        rw [accepted?, hcriterion]
        rfl
      rw [List.filterMap_cons_some hsome]
      refine .accepted (hasks.1 ?_) ih
      rw [hcriterion]
      rfl

theorem sortEntries_reached (steps : List Step) :
    SortEntries (Step.host.sorts .root steps) (Step.host.reached .root steps).sortItems := by
  have hsort := Outcome.list_runAll Draft.sort Step.sort_run steps .root
  have hcalls : (Step.host.reached .root steps).sort =
      (Step.host.sorts .root steps).filterMap accepted? := by
    rw [Host.sorts, List.filterMap_filterMap]
    exact hsort
  rw [Draft.sortItems, hcalls]
  exact sortEntries_accepted _

/-- The query half, and the entries of `sort` after it if there are any. -/
def sortedDocument (query : Document) (entries : List Document) : Document :=
  .object (("query", query) :: if entries.isEmpty then [] else [("sort", .array entries)])

theorem Draft.document_of_root {draft : Draft} (h : draft.isRoot = true) :
    draft.document = sortedDocument draft.clauseDocument draft.sortItems := by
  have hsort : draft.sortDocument = .array draft.sortItems := by
    rw [sortDocument, Value.resolve, Value.resolveItems_eq_map, List.map_map]
    rfl
  rw [document, if_pos h, hsort, sortedDocument, sortItems, List.isEmpty_map]

theorem Draft.document_of_group {draft : Draft} (h : draft.isRoot = false) :
    draft.document = draft.clauseDocument := by
  rw [document, h]
  rfl

/-- A sort call is accepted exactly if its criteria ask for something. The calls that are accepted
are the `sort` entry of a root, in their order. They reach nothing else, so the query half, a group
and a filter are what they would be without them. -/
theorem sort_calls :
    (∀ (field : String) (criteria : Document) (draft : Draft),
      SortAnswered field criteria draft ((Call.sort field criteria).run draft)) ∧
    (∀ steps : List Step, ∃ query entries, SortEntries (Step.host.sorts .root steps) entries ∧
      (Step.runAll steps .root).state.document = sortedDocument query entries ∧
      (Step.runAll (Step.host.unsorted .root steps) .root).state.document =
        sortedDocument query []) ∧
    (∀ steps : List Step, (Step.runAll (Step.host.unsorted .group steps) .group).state.document =
      (Step.runAll steps .group).state.document) ∧
    (∀ steps : List FilterStep,
      (FilterStep.runAll (FilterStep.host.unsorted {} steps) {}).state.document =
        (FilterStep.runAll steps {}).state.document) ∧
    (∀ draft steps, Step.host.SortsApart draft steps) ∧
    (∀ filter steps, FilterStep.host.SortsApart filter steps) := by
  simp only [Step.runAll_eq, FilterStep.runAll_eq]
  refine ⟨sortAnswered, fun steps => ?_, fun steps => ?_, fun steps => ?_, Step.sortsApart,
    FilterStep.sortsApart⟩
  · have hroot : (Step.host.reached .root steps).isRoot = true :=
      Step.host.isRoot_reached .root steps
    have hunsorted := congrArg Draft.document (Step.sortsApart .root steps).reached
    exact ⟨(Step.host.reached .root steps).clauseDocument, _, sortEntries_reached steps,
      Draft.document_of_root hroot, hunsorted.trans (Draft.document_of_root hroot)⟩
  · have hgroup : (Step.host.reached .group steps).isRoot = false :=
      Step.host.isRoot_reached .group steps
    have hunsorted := congrArg Draft.document (Step.sortsApart .group steps).reached
    exact (hunsorted.trans (Draft.document_of_group hgroup)).trans
      (Draft.document_of_group hgroup).symm
  · exact (congrArg Filter.document (FilterStep.sortsApart {} steps).reached).trans rfl

/-- Upper case counts as the name of an order, and `1.0` is no direction. -/
theorem sort_calls_refused :
    let one : Number := .float ⟨false, 0x3FF0000000000000, by decide⟩ (by decide)
    (∃ criterion, criterion.resolve = .object [("order", .string "desc")] ∧
      ((Call.sort "created" (.string "DESC")).run .root).state =
        Draft.root.addSort "created" criterion) ∧
    ((Call.sort "rating" (.number one)).run .root).error = some (.usage (.sortDirection one)) := by
  intro one
  obtain ⟨hcalls, -⟩ := sort_calls
  have hspelled : SortOrder.desc.Spelled "DESC" := by
    simp [SortOrder.Spelled, SortOrder.Writes, SortOrder.name]
  have hnone : ∀ {x finite} (d : Document), ¬ Asks (.number (.float x finite)) d := by
    intro x finite d hd
    cases hd with
    | order means => cases means
  exact ⟨(hcalls "created" (.string "DESC") .root).stored _ (.order (.text hspelled)),
    ((hcalls "rating" (.number one) .root).refused _).2 ⟨hnone, rfl⟩⟩

end SearchQuery
