import SearchQuery.Proofs.Halves

/-!
# Filters in filters

A filter refuses to be filtered. The draft that it holds does not, and neither does a group in it:
they are drafts like any other and do not know where they stand. So the whole tree of a filter's
clauses is free of filters exactly if none of them leaves one.
-/

namespace SearchQuery

open Entries

/-! ## Trees of clauses -/

/-- Neither these clauses nor any boolean group in them are filtered. -/
inductive Document.FilterFree : Document → Prop where
  | mk {clauses : Entries Document} (own : get? "filtered" clauses = none)
      (groups : ∀ bool ∈ get? "bool" clauses, ∀ occur, ∀ list ∈ get? (Occur.key occur) bool.entries,
        ∀ entry ∈ list.items, FilterFree entry) : FilterFree (.object clauses)

theorem Document.mem_of_listOf? {items : List Document} {list entry : Document}
    (h : some list = listOf? items) (hentry : entry ∈ list.items) : entry ∈ items := by
  cases items with
  | nil => cases h
  | cons first rest =>
    obtain rfl := Option.some.inj h
    exact hentry

/-- Of the lists in the clauses only the `filtered` one and those of groups matter. -/
theorem Document.filterFree_object {clauses : Entries Document} {filtered : List Document}
    {groups : Occur → List Document} (hfiltered : get? "filtered" clauses = listOf? filtered)
    (hgroups : ∀ occur, (get? "bool" clauses).bind (fun bool => get? occur.key bool.entries) =
      listOf? (groups occur)) :
    (Document.object clauses).FilterFree ↔
      filtered = [] ∧ ∀ occur, ∀ entry ∈ groups occur, entry.FilterFree := by
  constructor
  · rintro ⟨own, inner⟩
    rw [own] at hfiltered
    refine ⟨?_, fun occur entry hentry => ?_⟩
    · cases filtered with
      | nil => rfl
      | cons first rest => cases hfiltered
    · have hlist := hgroups occur
      rw [listOf?_of_ne_nil (List.ne_nil_of_mem hentry)] at hlist
      obtain ⟨bool, hbool, hoccur⟩ := Option.bind_eq_some_iff.1 hlist
      exact inner bool hbool occur _ hoccur entry hentry
  · rintro ⟨rfl, inner⟩
    refine .mk hfiltered (fun bool hbool occur list hlist entry hentry => ?_)
    have hitems := hgroups occur
    rw [Option.mem_def.1 hbool, Option.bind_some, Option.mem_def.1 hlist] at hitems
    exact inner occur entry (mem_of_listOf? hitems hentry)

theorem Field.filterFree_payload {field : Field} (h : field.Sound) :
    (Value.object field.payload).resolve.FilterFree := by
  have habsent : ∀ kind : ClauseKind, (∀ op, kind ≠ .operator op) →
      get? kind.key (Value.resolveEntries field.payload) = none := by
    intro kind hkind
    rw [get?_eq_none_iff, Value.keys_resolveEntries]
    exact not_mem_keys_payload h (Operator.key_ne_kind kind hkind)
  refine .mk (habsent .filtered nofun) ?_
  rw [show get? "bool" (Value.resolveEntries field.payload) = none from habsent .bool nofun]
  nofun

/-! ## Steps that leave a filter -/

/-- A filter is finished in the step, be it in a group of a group. -/
inductive Step.LeavesFilter : Step → Prop where
  | filter {body : List FilterStep} {d : Document} (finished : buildFilter body = .ok d) :
      LeavesFilter (.filter body)
  | group {occur : Occur} {body : List Step} {d : Document} (finished : buildGroup body = .ok d)
      {step : Step} (mem : step ∈ body) (leaves : LeavesFilter step) :
      LeavesFilter (.call (.group occur body))
  | attempt {step : Step} (leaves : LeavesFilter step) : LeavesFilter (.attempt step)

/-- The step leaves no filter of its own, and no group that holds one. -/
structure Step.FilterFree (step : Step) : Prop where
  filter : ∀ body ∈ step.filterBody?, (buildFilter body).toOption = none
  group : ∀ occur, ∀ body ∈ step.groupBody? false occur, ∀ d, buildGroup body = .ok d → d.FilterFree

theorem mem_toOption {ε α : Type} {checked : Except ε α} {a : α} :
    a ∈ checked.toOption ↔ checked = .ok a := by
  cases checked <;> simp [Except.toOption]

theorem mem_groupEntries {isRoot : Bool} {occur : Occur} {steps : List Step} {entry : Document} :
    entry ∈ groupEntries isRoot occur steps ↔
      ∃ step ∈ steps, ∃ body ∈ step.groupBody? isRoot occur, buildGroup body = .ok entry := by
  unfold groupEntries
  simp only [List.mem_filterMap, ← mem_toOption, Option.mem_def]
  constructor
  · rintro ⟨body, ⟨step, hstep, hbody⟩, hbuild⟩
    exact ⟨step, hstep, body, hbody, hbuild⟩
  · rintro ⟨step, hstep, body, hbody, hbuild⟩
    exact ⟨body, ⟨step, hstep, hbody⟩, hbuild⟩

theorem filterEntries_eq_nil {steps : List Step} :
    filterEntries steps = [] ↔
      ∀ step ∈ steps, ∀ body ∈ step.filterBody?, (buildFilter body).toOption = none := by
  unfold filterEntries
  simp only [List.filterMap_eq_nil_iff, List.mem_filterMap]
  constructor
  · exact fun h step hstep body hbody => h body ⟨step, hstep, hbody⟩
  · rintro h body ⟨step, hstep, hbody⟩
    exact h step hstep body hbody

theorem get?_filtered_buildGroup {body : List Step} {d : Document} (h : buildGroup body = .ok d) :
    get? "filtered" d.entries = Document.listOf? (filterEntries body) := by
  have herror := (Outcome.result_eq_ok.1 h).1
  have hclauses := (Step.sound_runAll body (Draft.sound_new false)).allClauses
  rw [buildGroup_eq_object h, ← filtered_allClauses herror]
  exact hclauses.get?_filtered

theorem get?_group_buildGroup {body : List Step} {d : Document} (h : buildGroup body = .ok d)
    (occur : Occur) : (get? "bool" d.entries).bind (fun bool => get? occur.key bool.entries) =
      Document.listOf? (groupEntries false occur body ++ fieldEntries false occur body) := by
  have herror := (Outcome.result_eq_ok.1 h).1
  have hclauses := (Step.sound_runAll body (Draft.sound_new false)).allClauses
  rw [buildGroup_eq_object h, ← group_allClauses herror]
  exact hclauses.get?_group occur

theorem filterFree_fieldEntries (occur : Occur) (steps : List Step) :
    ∀ entry ∈ fieldEntries false occur steps, entry.FilterFree := by
  intro entry hentry
  obtain ⟨field, hfield, rfl⟩ := List.mem_map.1 hentry
  have hdeclared := (List.mem_filter.1 hfield).1
  exact Field.filterFree_payload (sound_declaredFields false steps field hdeclared)

theorem buildGroup_filterFree {body : List Step} {d : Document} (h : buildGroup body = .ok d) :
    d.FilterFree ↔ ∀ step ∈ body, step.FilterFree := by
  have hfiltered := get?_filtered_buildGroup h
  have hgroups := get?_group_buildGroup h
  obtain ⟨clauses, rfl⟩ : ∃ clauses, d = .object clauses := ⟨_, buildGroup_eq_object h⟩
  refine (Document.filterFree_object hfiltered hgroups).trans ?_
  rw [filterEntries_eq_nil]
  constructor
  · rintro ⟨hown, hinner⟩ step hstep
    refine ⟨hown step hstep, fun occur inner hbody d hd => ?_⟩
    have hentry := mem_groupEntries.2 ⟨step, hstep, inner, hbody, hd⟩
    exact hinner occur d (List.mem_append_left _ hentry)
  · intro hsteps
    refine ⟨fun step hstep => (hsteps step hstep).filter, fun occur entry hentry => ?_⟩
    rcases List.mem_append.1 hentry with hentry | hentry
    · obtain ⟨step, hstep, inner, hbody, hd⟩ := mem_groupEntries.1 hentry
      exact (hsteps step hstep).group occur inner hbody entry hd
    · exact filterFree_fieldEntries occur body entry hentry

theorem Step.LeavesFilter.not_filterFree {step : Step} (h : step.LeavesFilter) :
    ¬ step.FilterFree := by
  induction h with
  | @filter body d finished =>
    rintro ⟨hfilter, -⟩
    have hnone := hfilter body rfl
    rw [finished] at hnone
    cases hnone
  | @group occur body d finished step mem _ ih =>
    rintro ⟨-, hgroup⟩
    have hfree := hgroup occur body (if_pos rfl) d finished
    exact ih ((buildGroup_filterFree finished).1 hfree step mem)
  | attempt _ ih => exact fun h => ih ⟨h.filter, h.group⟩

-- The induction is on the nesting of groups.
mutual

theorem Call.filterFree : (call : Call) → ¬ (Step.call call).LeavesFilter →
    (Step.call call).FilterFree
  | .group other body, h => by
    refine ⟨nofun, fun occur inner hinner d hd => ?_⟩
    simp only [Step.groupBody?] at hinner
    split at hinner
    · obtain rfl := Option.some.inj hinner
      exact (buildGroup_filterFree hd).2 (Step.filterFree_of_mem body
        (fun step hstep hleaves => h (.group hd hstep hleaves)))
    · cases hinner
  | .queryString .., _ | .multiMatch .., _ => ⟨nofun, by simp [Step.groupBody?]⟩
  | .field .., _ | .named .., _ | .aggregate _, _ | .sort .., _ | .fail _, _ | .note _, _
  | .probe, _ => ⟨nofun, nofun⟩

theorem Step.filterFree : (step : Step) → ¬ step.LeavesFilter → step.FilterFree
  | .call inner, h => inner.filterFree h
  | .filter body, h => by
    refine ⟨fun own hown => ?_, nofun⟩
    obtain rfl := Option.some.inj hown
    cases hbuild : buildFilter body with
    | error error => rfl
    | ok d => exact absurd (.filter hbuild) h
  | .attempt step, h => by
    have hstep := step.filterFree (fun hleaves => h (.attempt hleaves))
    exact ⟨hstep.filter, hstep.group⟩

theorem Step.filterFree_of_mem : (steps : List Step) →
    (∀ step ∈ steps, ¬ step.LeavesFilter) → ∀ step ∈ steps, step.FilterFree
  | [], _ => nofun
  | step :: rest, h => by
    rw [List.forall_mem_cons] at h ⊢
    exact ⟨step.filterFree h.1, Step.filterFree_of_mem rest h.2⟩

end

theorem Step.filterFree_iff {steps : List Step} :
    (∀ step ∈ steps, step.FilterFree) ↔ ∀ step ∈ steps, ¬ step.LeavesFilter :=
  ⟨fun h step hstep hleaves => hleaves.not_filterFree (h step hstep),
    Step.filterFree_of_mem steps⟩

/-! ## The filter half -/

namespace FilterStep

/-- The body of a filter that is asked of the draft. -/
def draftFilter? : FilterStep → Option (List FilterStep)
  | .call _ => none
  | .filter _ => none
  | .draftFilter body => some body
  | .query _ => none
  | .attempt step => step.draftFilter?

theorem filterBody?_narrowing? (step : FilterStep) :
    step.narrowing?.bind Step.filterBody? = step.draftFilter? := by
  cases step with
  | call | filter | draftFilter | query => rfl
  | attempt inner =>
    rw [narrowing?, Option.bind_map]
    exact inner.filterBody?_narrowing?

end FilterStep

/-- The filters that are finished on the draft of a filter. -/
def draftFilterEntries (steps : List FilterStep) : List Document :=
  (steps.filterMap FilterStep.draftFilter?).filterMap (fun body => (buildFilter body).toOption)

theorem filterEntries_narrowingSteps (steps : List FilterStep) :
    filterEntries (narrowingSteps steps) = draftFilterEntries steps := by
  have hbodies : (narrowingSteps steps).filterMap Step.filterBody? =
      steps.filterMap FilterStep.draftFilter? := by
    rw [narrowingSteps, List.filterMap_filterMap]
    exact congrArg (fun f => List.filterMap f steps) (funext FilterStep.filterBody?_narrowing?)
  rw [filterEntries, hbodies, draftFilterEntries]

theorem buildGroup_of_get?_filter {steps : List FilterStep} {d clauses : Document}
    (h : buildFilter steps = .ok d) (hclauses : get? "filter" d.entries = some clauses) :
    buildGroup (narrowingSteps steps) = .ok clauses := by
  have hnarrowing := buildGroup_narrowingSteps (Outcome.result_eq_ok.1 h).1
  rw [buildFilter_eq_append h, Document.entries,
    get?_append_of_not_mem (not_mem_keys_query steps)] at hclauses
  rw [hnarrowing]
  unfold narrowingHalf at hclauses
  split at hclauses
  · cases hclauses
  · exact congrArg Except.ok (Option.some.inj hclauses)

/-- A filter call on a filter is refused, and its body is not run. The clauses of a filter are
`filtered` by what calls on its draft have finished, and by nothing else. Their whole tree is free
of filters exactly if neither these calls nor a group in the filter leave one. -/
theorem filter_refuses_filters (body steps : List FilterStep) (filter : Filter) :
    (FilterStep.filter body).run filter = ⟨filter, [], some (.usage .nestedFilter)⟩ ∧
      (QueryError.usage .nestedFilter).kind = .usage ∧
      ∀ d clauses, buildFilter steps = .ok d → get? "filter" d.entries = some clauses →
        get? "filtered" clauses.entries = Document.listOf? (draftFilterEntries steps) ∧
          (clauses.FilterFree ↔ ∀ step ∈ narrowingSteps steps, ¬ step.LeavesFilter) := by
  refine ⟨rfl, rfl, fun d clauses h hclauses => ?_⟩
  have hgroup := buildGroup_of_get?_filter h hclauses
  constructor
  · rw [get?_filtered_buildGroup hgroup, filterEntries_narrowingSteps]
  · exact (buildGroup_filterFree hgroup).trans Step.filterFree_iff

/-- A refused filter that is caught leaves nothing, beside a group of a group. Of two filters on the
draft the one that fails leaves nothing either, and the other is the `filtered` clause. -/
theorem filter_refuses_filters_caught :
    let active : Document := .object [("term", .object [("status", .string "active")])]
    let status : Call := .field "status" [.is (.string "active")]
    let refused : List FilterStep :=
      [.attempt (.filter []), .call (.group .must [.call (.group .mustNot [.call status])])]
    let free : Document := .object [("bool", .object [("must", .array [.object [("bool",
      .object [("must_not", .array [active])])]])])]
    let onDraft : List FilterStep :=
      [.attempt (.draftFilter [.filter []]), .draftFilter [.call status]]
    let filtered : Document := .object [("filtered", .array [.object [("filter", active)]])]
    (buildFilter refused = .ok (.object [("filter", free)]) ∧
      get? "filtered" free.entries = none ∧ free.FilterFree) ∧
    (buildFilter onDraft = .ok (.object [("filter", filtered)]) ∧
      get? "filtered" filtered.entries = Document.listOf? (draftFilterEntries onDraft) ∧
      ¬ filtered.FilterFree) := by
  intro active status refused free onDraft filtered
  have hrefused : buildFilter refused = .ok (.object [("filter", free)]) := rfl
  have honDraft : buildFilter onDraft = .ok (.object [("filter", filtered)]) := rfl
  obtain ⟨-, -, hfree⟩ := filter_refuses_filters [] refused {}
  obtain ⟨-, -, hfiltered⟩ := filter_refuses_filters [] onDraft {}
  obtain ⟨hown, hiff⟩ := hfree _ free hrefused rfl
  obtain ⟨hlist, hiff'⟩ := hfiltered _ filtered honDraft rfl
  refine ⟨⟨hrefused, hown, hiff.2 (fun step hstep hleaves => ?_)⟩, honDraft, hlist, fun h => ?_⟩
  · obtain rfl := List.mem_singleton.1 hstep
    cases hleaves with
    | group _ mem leaves =>
      obtain rfl := List.mem_singleton.1 mem
      cases leaves with
      | group _ mem leaves =>
        obtain rfl := List.mem_singleton.1 mem
        change (Step.call (.field _ _)).LeavesFilter at leaves
        cases leaves
  · exact hiff'.1 h (.filter [.call status]) (List.mem_cons_of_mem _ List.mem_cons_self)
      (.filter rfl)

/-- The ban holds neither in a group nor on the draft. A filter call in a `must` group of a filter
runs its body and leaves a `filtered` clause in the tree, and so does one on the draft that a sort
call hands back. -/
theorem drafts_in_filter_filter :
    let inGroup : List FilterStep := [.call (.group .must [.filter [.call (.note "inner")]])]
    let onDraft : List FilterStep :=
      [.call (.sort "created" (.object [])), .draftFilter [.call (.note "inner")]]
    let filtered : Document := .object [("filtered", .array [.object []])]
    let grouped : Document := .object [("bool", .object [("must", .array [filtered])])]
    ((FilterStep.runAll inGroup {}).error = none ∧
      (FilterStep.runAll inGroup {}).notes = [.label "inner"] ∧
      buildFilter inGroup = .ok (.object [("filter", grouped)]) ∧ ¬ grouped.FilterFree) ∧
    ((FilterStep.runAll onDraft {}).error = none ∧
      (FilterStep.runAll onDraft {}).notes = [.label "inner"] ∧
      buildFilter onDraft = .ok (.object [("filter", filtered)]) ∧ ¬ filtered.FilterFree) := by
  intro inGroup onDraft filtered grouped
  have hfiltered : ¬ filtered.FilterFree := by
    change ¬ (Document.object _).FilterFree
    rintro ⟨own, -⟩
    cases own
  refine ⟨⟨rfl, rfl, rfl, ?_⟩, rfl, rfl, rfl, hfiltered⟩
  change ¬ (Document.object _).FilterFree
  rintro ⟨-, groups⟩
  exact hfiltered (groups _ rfl .must _ rfl _ List.mem_cons_self)

end SearchQuery
