import SearchQuery.Proofs.Edit
import SearchQuery.Proofs.Entries

/-!
# Names of aggregations

Registrations are listed in the order of the calls. The `aggs` clause has one entry for each of
their names: the first registration of a name gives the place and the last one the body. A name that
is made of a field and a function can be read in two ways only if the functions are `stats` and
`extended_stats`.
-/

namespace SearchQuery

open Entries

/-! ## Registrations -/

namespace Aggregation

/-- The finished entry of an aggregation. -/
def document (aggregation : Aggregation) : Document :=
  .object [(aggregation.function, .object [("field", .string aggregation.field)])]

theorem renameAll_eq (names : List String) (aggregation : Aggregation) :
    aggregation.renameAll names =
      { aggregation with name := names.getLast?.getD aggregation.name } := by
  induction names generalizing aggregation with
  | nil => rfl
  | cons name rest ih =>
    have hrest : aggregation.renameAll (name :: rest) = (aggregation.rename name).renameAll rest :=
      rfl
    rw [hrest, ih, List.getLast?_cons]
    cases rest.getLast? <;> rfl

end Aggregation

namespace AggregationStep

def fails : AggregationStep → Bool
  | .fail _ => true
  | _ => false

/-- The steps before the first that fails. -/
def taken (steps : List AggregationStep) : List AggregationStep :=
  steps.takeWhile (fun step => !step.fails)

/-- What a step registers. The last of its names counts, and the default name if there is none. -/
def registered? : AggregationStep → Option Aggregation
  | .register function field names =>
    some ⟨function, field, names.getLast?.getD (field ++ "_" ++ function)⟩
  | .fail _ => none
  | .note _ => none

variable {steps : List AggregationStep} {found : List Aggregation}

theorem run_error (step : AggregationStep) (found : List Aggregation) :
    (step.run found).error = none ↔ step.fails = false := by
  cases step <;> simp [run, fails, Outcome.done, Outcome.failed, Outcome.noted]

theorem run_state (step : AggregationStep) (found : List Aggregation) :
    (step.run found).state = found ++ step.registered?.toList := by
  cases step with
  | register function field names =>
    have hnamed := Aggregation.renameAll_eq names (.of function field)
    exact congrArg (fun a => found ++ [a]) hnamed
  | fail | note => exact (List.append_nil found).symm

theorem runAll_state (steps : List AggregationStep) (found : List Aggregation) :
    (runAll steps found).state = found ++ (taken steps).filterMap registered? := by
  induction steps generalizing found with
  | nil => exact (List.append_nil found).symm
  | cons step rest ih =>
    cases hfails : step.fails with
    | true =>
      cases step with
      | fail error => exact (List.append_nil found).symm
      | register | note => cases hfails
    | false =>
      have hstep := (run_error step found).2 hfails
      have hrun : (runAll (step :: rest) found).state =
          (runAll rest (step.run found).state).state := Outcome.andThen_state hstep _
      have htaken : taken (step :: rest) = step :: taken rest :=
        List.takeWhile_cons_of_pos (by simp [hfails])
      rw [hrun, ih, run_state, htaken, Outcome.filterMap_cons_toList, List.append_assoc]

theorem runAll_error (h : ∀ step ∈ steps, step.fails = false) (found : List Aggregation) :
    (runAll steps found).error = none := by
  induction steps generalizing found with
  | nil => rfl
  | cons step rest ih =>
    rw [List.forall_mem_cons] at h
    have hstep := (run_error step found).2 h.1
    exact (Outcome.andThen_error hstep _).trans (ih h.2 _)

theorem taken_of_succeed (h : ∀ step ∈ steps, step.fails = false) : taken steps = steps := by
  induction steps with
  | nil => rfl
  | cons step rest ih =>
    rw [List.forall_mem_cons] at h
    rw [taken, List.takeWhile_cons_of_pos (by simp [h.1])]
    exact congrArg (step :: ·) (ih h.2)

end AggregationStep

/-! ## The finished clause -/

namespace Aggregation

theorem givenTo_bodies (name : String) (found : List Aggregation) :
    givenTo name (found.map (fun a => (a.name, a.body))) =
      (found.filter (fun a => a.name = name)).map body := by
  unfold givenTo
  induction found with
  | nil => rfl
  | cons a rest ih => by_cases h : a.name = name <;> simp [h, ih]

/-- Each name stands where it was first registered, with what was registered under it last. -/
theorem clause_resolve (found : List Aggregation) :
    ∃ entries, (clause found).resolve = .object entries ∧
      keys entries = (found.map Aggregation.name).eraseDups ∧
      ∀ name, get? name entries =
        (found.filter (fun a => a.name = name)).getLast?.map document := by
  refine ⟨_, rfl, ?_, fun name => ?_⟩
  · rw [Value.keys_resolveEntries, keys_ofList, List.map_map]
    rfl
  · rw [Value.get?_resolveEntries, get?_ofList, givenTo_bodies, List.getLast?_map, Option.map_map]
    rfl

end Aggregation

namespace AggregationStep

section

variable (before after : List AggregationStep) (function field : String)
  (names others : List String)

/-- A registration has its place after those of the steps before it, if none of them fails. -/
theorem runAll_register :
    (runAll (before ++ .register function field names :: after) []).state =
      if (taken before).length = before.length then
        before.filterMap registered? ++
          ⟨function, field, names.getLast?.getD (field ++ "_" ++ function)⟩ ::
            (taken after).filterMap registered?
      else (taken before).filterMap registered? := by
  rw [runAll_state, taken, List.takeWhile_append, List.nil_append]
  split
  · rename_i hall
    rw [List.takeWhile_cons_of_pos rfl, List.filterMap_append]
    exact (if_pos hall).symm
  · rename_i hsome
    exact (if_neg hsome).symm

/-- Other names on one registration change nothing but the name at its place. -/
theorem runAll_rename :
    let first := (runAll (before ++ .register function field names :: after) []).state
    let second := (runAll (before ++ .register function field others :: after) []).state
    let place := (before.filterMap registered?).length
    first.map (fun a => (a.function, a.field)) = second.map (fun a => (a.function, a.field)) ∧
      (first.map Aggregation.name).eraseIdx place = (second.map Aggregation.name).eraseIdx place := by
  intro first second place
  have hfirst := runAll_register before after function field names
  have hsecond := runAll_register before after function field others
  by_cases htaken : (taken before).length = before.length
  · rw [if_pos htaken] at hfirst hsecond
    have hplace : place = ((before.filterMap registered?).map Aggregation.name).length :=
      (List.length_map _).symm
    constructor
    · simp [first, second, hfirst, hsecond]
    · simp only [first, second, hfirst, hsecond, List.map_append, List.map_cons]
      rw [List.eraseIdx_append_of_length_le (Nat.le_of_eq hplace.symm),
        List.eraseIdx_append_of_length_le (Nat.le_of_eq hplace.symm), ← hplace, Nat.sub_self]
      rfl
  · rw [if_neg htaken] at hfirst hsecond
    have hsame : first = second := hfirst.trans hsecond.symm
    rw [hsame]
    exact ⟨rfl, rfl⟩

end

end AggregationStep

/-- The registrations are listed in the order of the calls, each under the last of its names. In the
finished clause each name stands where it was first registered, with the function and the field that
were registered under it last. To rename one registration changes nothing about the others. -/
theorem last_registration_counts :
    (∀ steps : List AggregationStep,
      let found := (AggregationStep.runAll steps []).state
      found = (AggregationStep.taken steps).filterMap AggregationStep.registered? ∧
      ∃ entries, (Aggregation.clause found).resolve = .object entries ∧
        keys entries = (found.map Aggregation.name).eraseDups ∧
        ∀ name, get? name entries =
          (found.filter (fun a => a.name = name)).getLast?.map Aggregation.document) ∧
    (∀ (before after : List AggregationStep) (function field : String) (names others : List String),
      let first :=
        (AggregationStep.runAll (before ++ .register function field names :: after) []).state
      let second :=
        (AggregationStep.runAll (before ++ .register function field others :: after) []).state
      let place := (before.filterMap AggregationStep.registered?).length
      first.map (fun a => (a.function, a.field)) = second.map (fun a => (a.function, a.field)) ∧
        (first.map Aggregation.name).eraseIdx place =
          (second.map Aggregation.name).eraseIdx place) := by
  constructor
  · intro steps found
    have hfound : found = (AggregationStep.taken steps).filterMap AggregationStep.registered? :=
      AggregationStep.runAll_state steps []
    exact ⟨hfound, Aggregation.clause_resolve found⟩
  · exact AggregationStep.runAll_rename

/-- The third registration takes the place of the first, which is still listed. -/
example :
    let found := (AggregationStep.runAll
      [ .metric .min "foo" [], .metric .avg "foo" ["mean"],
        .register "max" "bar" ["biggest", "foo_min"], .note "all" ] []).state
    found.map Aggregation.name = ["foo_min", "mean", "foo_min"] ∧
      (Aggregation.clause found).resolve = .object
        [ ("foo_min", .object [("max", .object [("field", .string "bar")])]),
          ("mean", .object [("avg", .object [("field", .string "foo")])]) ] := ⟨rfl, rfl⟩

/-! ## Default names -/

/-- The finished clause of the registrations. -/
def publish (body : List AggregationStep) : Except QueryError Document :=
  (collectAggregations body).map (fun found => (Aggregation.clause found).resolve)

namespace Metric

-- In what follows a pair stands for a registration of a function over a field by its default name.

def registration (pair : Metric × String) : AggregationStep := .metric pair.1 pair.2 []

/-- The default name and the finished entry of a registration. -/
def entry (pair : Metric × String) : String × Document :=
  (pair.2 ++ "_" ++ pair.1.name, (Aggregation.of pair.1.name pair.2).document)

/-- The two default names are read off one text. -/
def Shadows (first second : Metric × String) : Prop :=
  first.1 = .stats ∧ second.1 = .extendedStats ∧ first.2 = second.2 ++ "_extended"

theorem suffix_iff (first second : Metric) :
    ('_' :: first.name.toList) <:+ ('_' :: second.name.toList) ↔
      first = second ∨ (first = .stats ∧ second = .extendedStats) := by
  cases first <;> cases second <;> decide

variable {first second : Metric × String}

theorem toList_entry (pair : Metric × String) :
    (entry pair).1.toList = pair.2.toList ++ '_' :: pair.1.name.toList := by
  simp [entry]

theorem Shadows.name_eq (h : Shadows first second) : (entry first).1 = (entry second).1 := by
  obtain ⟨hfirst, hsecond, hfield⟩ := h
  rw [← String.toList_inj, toList_entry, toList_entry, hfirst, hsecond, hfield,
    String.toList_append, List.append_assoc]
  rfl

theorem shadows_of_suffix (hne : first ≠ second) (hname : (entry first).1 = (entry second).1)
    (hsuffix : ('_' :: first.1.name.toList) <:+ ('_' :: second.1.name.toList)) :
    Shadows first second := by
  have htext : first.2.toList ++ '_' :: first.1.name.toList =
      second.2.toList ++ '_' :: second.1.name.toList := by
    rw [← toList_entry, ← toList_entry, hname]
  rcases (suffix_iff first.1 second.1).1 hsuffix with hsame | ⟨hfirst, hsecond⟩
  · rw [hsame] at htext
    have hfield := String.toList_inj.1 (List.append_cancel_right htext)
    exact absurd (Prod.ext hsame hfield) hne
  · refine ⟨hfirst, hsecond, String.toList_inj.1 ?_⟩
    rw [hfirst, hsecond] at htext
    have hlonger : first.2.toList ++ "_stats".toList =
        (second.2 ++ "_extended").toList ++ "_stats".toList := by
      rw [String.toList_append, List.append_assoc]
      exact htext
    exact List.append_cancel_right hlonger

theorem name_eq_iff (hne : first ≠ second) :
    (entry first).1 = (entry second).1 ↔ Shadows first second ∨ Shadows second first := by
  constructor
  · intro hname
    have hfirst : ('_' :: first.1.name.toList) <:+ (entry second).1.toList :=
      ⟨first.2.toList, by rw [← toList_entry, hname]⟩
    have hsecond : ('_' :: second.1.name.toList) <:+ (entry second).1.toList :=
      ⟨second.2.toList, by rw [← toList_entry]⟩
    rcases List.suffix_or_suffix_of_suffix hfirst hsecond with hsuffix | hsuffix
    · exact Or.inl (shadows_of_suffix hne hname hsuffix)
    · exact Or.inr (shadows_of_suffix hne.symm hname.symm hsuffix)
  · rintro (h | h)
    · exact h.name_eq
    · exact h.name_eq.symm

variable {pairs : List (Metric × String)}

theorem publish_registrations (pairs : List (Metric × String)) :
    publish (pairs.map registration) = .ok (.object (Value.resolveEntries (ofList
      (pairs.map (fun pair => ((entry pair).1, (Aggregation.of pair.1.name pair.2).body)))))) := by
  have hsucceed : ∀ step ∈ pairs.map registration, step.fails = false := by
    intro step hstep
    obtain ⟨pair, -, rfl⟩ := List.mem_map.1 hstep
    rfl
  have hcollect : collectAggregations (pairs.map registration) =
      .ok (pairs.map (fun pair => Aggregation.of pair.1.name pair.2)) := by
    refine Outcome.result_eq_ok.2 ⟨AggregationStep.runAll_error hsucceed [], ?_⟩
    rw [id, AggregationStep.runAll_state, AggregationStep.taken_of_succeed hsucceed,
      List.nil_append, List.filterMap_map]
    exact congrFun List.filterMap_eq_map pairs
  unfold publish
  rw [hcollect, Except.map, Aggregation.clause, List.map_map]
  rfl

/-- Without two registrations of one name, no registration is lost. -/
theorem publish_of_apart (h : ∀ first ∈ pairs, ∀ second ∈ pairs, ¬ Shadows first second) :
    publish (pairs.map registration) = .ok (.object (pairs.eraseDups.map entry)) := by
  have hinj : ∀ first ∈ pairs, ∀ second ∈ pairs,
      (entry first).1 = (entry second).1 → first = second := by
    intro first hfirst second hsecond hname
    by_cases hne : first = second
    · exact hne
    · rcases (name_eq_iff hne).1 hname with hshadows | hshadows
      · exact absurd hshadows (h first hfirst second hsecond)
      · exact absurd hshadows (h second hsecond first hfirst)
  rw [publish_registrations, ofList_map _ hinj, Value.resolveEntries_eq_map, List.map_map]
  rfl

/-- The second registration takes the place of the first, which is lost. -/
def Collide (first second : Metric × String) : Prop :=
  publish [registration first, registration second] = .ok (.object [entry second])

theorem collide_of_name_eq (h : (entry first).1 = (entry second).1) : Collide first second := by
  have hpublish := publish_registrations [first, second]
  simp only [List.map_cons, List.map_nil, h, ofList, insertAll, List.foldl_cons, List.foldl_nil,
    Entries.insert, update, if_true] at hpublish
  exact hpublish

theorem not_shadows_self (pair : Metric × String) : ¬ Shadows pair pair := by
  rintro ⟨hstats, hextended, -⟩
  cases hstats.symm.trans hextended

theorem collide_iff (hne : first ≠ second) :
    Collide first second ↔ Shadows first second ∨ Shadows second first := by
  constructor
  · intro hcollide
    by_cases hfirst : Shadows first second
    · exact Or.inl hfirst
    by_cases hsecond : Shadows second first
    · exact Or.inr hsecond
    -- Otherwise both entries are there.
    have hboth : publish [registration first, registration second] =
        .ok (.object ([first, second].eraseDups.map entry)) := by
      have hapart : ∀ a ∈ [first, second], ∀ b ∈ [first, second], ¬ Shadows a b := by
        simp [not_shadows_self, hfirst, hsecond]
      exact publish_of_apart hapart
    have hdups : [first, second].eraseDups = [first, second] := by
      simp [List.eraseDups_cons, hne.symm]
    rw [hdups] at hboth
    have hentries := Document.object.inj (Except.ok.inj (hboth.symm.trans hcollide))
    cases congrArg List.length hentries
  · exact fun h => collide_of_name_eq ((name_eq_iff hne).2 h)

/-- If nothing but repetitions is lost, no two registrations share a name. -/
theorem apart_of_publish
    (h : publish (pairs.map registration) = .ok (.object (pairs.eraseDups.map entry))) :
    ∀ first ∈ pairs, ∀ second ∈ pairs, ¬ Shadows first second := by
  rw [publish_registrations] at h
  have hentries := Document.object.inj (Except.ok.inj h)
  have hdistinct : Distinct (pairs.eraseDups.map entry) := by
    rw [← hentries]
    exact Value.distinct_resolveEntries (distinct_ofList _)
  intro first hfirst second hsecond hshadows
  have hget : ∀ pair ∈ pairs,
      get? (entry pair).1 (pairs.eraseDups.map entry) = some (entry pair).2 := fun pair hpair =>
    get?_of_mem hdistinct (List.mem_map_of_mem (List.mem_eraseDups.2 hpair))
  have hsame := hget first hfirst
  rw [hshadows.name_eq, hget second hsecond] at hsame
  obtain ⟨hstats, hextended, -⟩ := hshadows
  simp [entry, Aggregation.document, Aggregation.of, hstats, hextended, Metric.name] at hsame

end Metric

/-- Under their default names two registrations collide exactly if one is `stats` and the other
`extended_stats`, and the field of the first is that of the second with `_extended` after it. So the
finished clause has one entry for each function and field, in the order in which they were first
registered, exactly if there are no two such registrations. -/
theorem default_names_collide :
    (∀ first second : Metric × String, first ≠ second →
      (Metric.Collide first second ↔
        Metric.Shadows first second ∨ Metric.Shadows second first)) ∧
    (∀ pairs : List (Metric × String),
      publish (pairs.map Metric.registration) = .ok (.object (pairs.eraseDups.map Metric.entry)) ↔
        ∀ first ∈ pairs, ∀ second ∈ pairs, ¬ Metric.Shadows first second) :=
  ⟨fun _ _ => Metric.collide_iff, fun _ => ⟨Metric.apart_of_publish, Metric.publish_of_apart⟩⟩

/-- The statistics of one field are lost to the extended statistics of another, and those of a third
are not, although their name ends in the same way. -/
theorem default_names_collide_latency :
    let lost : Metric × String := (.stats, "latency_extended")
    let extended : Metric × String := (.extendedStats, "latency")
    let kept : Metric × String := (.stats, "latency")
    (lost ≠ extended ∧ Metric.Collide lost extended) ∧
    (kept ≠ extended ∧ ¬ Metric.Collide kept extended) ∧
    publish ([kept, extended, kept].map Metric.registration) =
      .ok (.object
        [ ("latency_stats", .object [("stats", .object [("field", .string "latency")])]),
          ("latency_extended_stats",
            .object [("extended_stats", .object [("field", .string "latency")])]) ]) := by
  intro lost extended kept
  have hlost : lost ≠ extended := by decide
  have hkept : kept ≠ extended := by decide
  obtain ⟨hpairs, hlists⟩ := default_names_collide
  have hshadows : ¬ (Metric.Shadows kept extended ∨ Metric.Shadows extended kept) := by
    rintro (⟨-, -, hfield⟩ | ⟨hstats, -⟩)
    · exact absurd hfield (by decide)
    · cases hstats
  refine ⟨⟨hlost, (hpairs _ _ hlost).2 (Or.inl ⟨rfl, rfl, rfl⟩)⟩,
    ⟨hkept, fun hcollide => hshadows ((hpairs _ _ hkept).1 hcollide)⟩, ?_⟩
  refine (hlists [kept, extended, kept]).2 ?_
  rw [not_or] at hshadows
  simp [Metric.not_shadows_self, hshadows]

end SearchQuery
