import SearchQuery.Proofs.Edit
import SearchQuery.Proofs.Grammar

/-!
# Every document follows the grammar

Each clause of a draft has the shape of its kind, in every state that steps can reach. So no clause
is ever coerced to another shape, and what is finished follows the grammar.
-/

namespace SearchQuery

open Entries

/-! ## Clauses of a draft -/

/-- The clauses that a draft can hold, those of its fields among them. -/
inductive ClauseKind where
  | queryString
  | multiMatch
  | bool
  | filtered
  | aggs
  | operator (op : Operator)

namespace ClauseKind

def key : ClauseKind → String
  | .queryString => "query_string"
  | .multiMatch => "multi_match"
  | .bool => "bool"
  | .filtered => "filtered"
  | .aggs => "aggs"
  | .operator op => op.key

theorem key_injective {a b : ClauseKind} (h : a.key = b.key) : a = b := by
  have hop : ∀ op : Operator, op.key ≠ "query_string" ∧ op.key ≠ "multi_match" ∧
      op.key ≠ "bool" ∧ op.key ≠ "filtered" ∧ op.key ≠ "aggs" := by
    intro op
    cases op with
    | matching kind => cases kind <;> decide
    | term | terms | regex | range => decide
  cases a with
  | operator op =>
    cases b with
    | operator other => rw [Operator.key_injective h]
    | queryString | multiMatch | bool | filtered | aggs =>
      have := hop op
      simp_all [key]
  | queryString | multiMatch | bool | filtered | aggs =>
    cases b with
    | operator op =>
      have := hop op
      simp_all [key, eq_comm]
    | queryString | multiMatch | bool | filtered | aggs => simp_all [key]

/-- The shape of a clause before it is resolved. Entries of groups and filters are finished
documents, so the rules of the grammar are asked of what they resolve to. -/
def Fits : ClauseKind → Value → Prop
  | .queryString, value => value.HasKey "query"
  | .multiMatch, value => value.HasKey "query" ∧ value.HasKey "fields"
  | .bool, value => value.ObjectOf (fun key list =>
      (∃ occur, key = Occur.key occur) ∧ list.ListOf (fun item => Grammar.Group item.resolve))
  | .filtered, value => value.ListOf (fun item => Grammar.Filtered item.resolve)
  | .aggs, value => ∃ found, value = .deferred (Aggregation.clause found)
  | .operator op, value => op.Fits value

theorem aggregated_resolve {found : List Aggregation} :
    ∀ e ∈ Value.resolveEntries (Entries.ofList (found.map (fun a => (a.name, a.body)))),
      Grammar.Aggregated e.2 := by
  have hbodies : ∀ e ∈ Entries.ofList (found.map (fun a => (a.name, a.body))),
      ∃ a : Aggregation, e.2 = a.body := by
    apply forall_insertAll (P := fun _ value => ∃ a : Aggregation, value = a.body)
    · simp
    · intro e he
      obtain ⟨a, -, rfl⟩ := List.mem_map.1 he
      exact ⟨a, rfl⟩
  intro e he
  rw [Value.resolveEntries_eq_map] at he
  obtain ⟨entry, hentry, rfl⟩ := List.mem_map.1 he
  obtain ⟨a, ha⟩ := hbodies entry hentry
  rw [ha]
  exact ⟨a.function, a.field, rfl⟩

theorem Fits.resolve {kind : ClauseKind} {value : Value} (h : kind.Fits value) :
    Grammar.Clause kind.key value.resolve := by
  cases kind <;> unfold Fits at h
  case queryString => exact .queryString h.resolve
  case multiMatch => exact .multiMatch h.1.resolve h.2.resolve
  case bool =>
    have hgroups := h.resolve (Q := fun key list => (∃ occur, key = Occur.key occur) ∧
      list.ListOf Grammar.Group) (fun _ _ hv => ⟨hv.1, hv.2.resolve (fun _ hitem => hitem)⟩)
    obtain ⟨groups, hd, hne, hdistinct, heach⟩ := hgroups
    rw [hd]
    refine .bool hne hdistinct (fun g hg => (heach g hg).1) (fun g hg => ?_)
    obtain ⟨items, hlist, hitems, hgroup⟩ := (heach g hg).2
    rw [hlist]
    exact .mk hitems hgroup
  case filtered =>
    obtain ⟨items, hd, hne, heach⟩ := h.resolve (Q := Grammar.Filtered) (fun _ hitem => hitem)
    rw [hd]
    exact .filtered hne heach
  case aggs =>
    obtain ⟨found, rfl⟩ := h
    exact .aggs (Value.distinct_resolveEntries (distinct_ofList _)) aggregated_resolve
  case operator op => exact .operator op (Operator.Fits.resolve h)

end ClauseKind

/-! ## Drafts -/

namespace Draft

/-- The kinds of clauses that steps store. A root never holds a bare clause. -/
def Stores (isRoot : Bool) : ClauseKind → Prop
  | .queryString | .multiMatch => isRoot = false
  | .bool | .filtered | .aggs => True
  | .operator _ => False

def Finishes (isRoot : Bool) (kind : ClauseKind) : Prop := isRoot = false ∨ Stores isRoot kind

def ClausesOf (allowed : ClauseKind → Prop) (clauses : Clauses) : Prop :=
  OfKinds ClauseKind.key (fun kind value => allowed kind ∧ kind.Fits value) clauses

/-- What every draft looks like that has been made by steps. -/
structure Sound (draft : Draft) : Prop where
  clauses : ClausesOf (Stores draft.isRoot) draft.clauses
  fields : ∀ field ∈ draft.fields, field.Sound
  /-- A field of a root can be rerouted, but it never loses its group. -/
  routed : draft.isRoot = true → ∀ field ∈ draft.fields, field.occur ≠ none
  sort : ∀ entry ∈ draft.sort, ∃ criterion, entry.2 = .object criterion

theorem sound_new (isRoot : Bool) : Sound { isRoot := isRoot } where
  clauses := ofKinds_nil
  fields := by simp
  routed := by simp
  sort := by simp

variable {allowed : ClauseKind → Prop} {clauses : Clauses}

theorem ClausesOf.update (h : ClausesOf allowed clauses) {kind : ClauseKind} (hkind : allowed kind)
    {f : Option Value → Value} (hf : ∀ old, (∀ v ∈ old, kind.Fits v) → kind.Fits (f old)) :
    ClausesOf allowed (Entries.update kind.key f clauses) :=
  OfKinds.update ClauseKind.key_injective h kind
    (fun old hold => ⟨hkind, hf old (fun v hv => (hold v hv).2)⟩)

theorem ClausesOf.appendToGroup (h : ClausesOf allowed clauses) (hbool : allowed .bool)
    (occur : Occur) {item : Value} (hitem : Grammar.Group item.resolve) :
    ClausesOf allowed (clauses.appendToGroup occur item) := by
  apply h.update hbool
  intro old hold
  refine Value.ObjectOf.update (P := fun key list => (∃ occur, key = Occur.key occur) ∧
    list.ListOf (fun item => Grammar.Group item.resolve)) hold ?_ ?_
  · exact ⟨⟨occur, rfl⟩, Value.ListOf.append (P := fun item => Grammar.Group item.resolve)
      (by simp) hitem⟩
  · rintro list ⟨hkey, hlist⟩
    exact ⟨hkey, Value.ListOf.append (P := fun item => Grammar.Group item.resolve)
      (by simpa using hlist) hitem⟩

theorem ClausesOf.append_filtered (h : ClausesOf allowed clauses) (hfiltered : allowed .filtered)
    {item : Value} (hitem : Grammar.Filtered item.resolve) :
    ClausesOf allowed (clauses.append "filtered" item) :=
  h.update hfiltered (fun _ hold =>
    Value.ListOf.append (P := fun item => Grammar.Filtered item.resolve) hold hitem)

theorem ClausesOf.insert (h : ClausesOf allowed clauses) {kind : ClauseKind} (hkind : allowed kind)
    {value : Value} (hvalue : kind.Fits value) :
    ClausesOf allowed (Entries.insert kind.key value clauses) :=
  h.update hkind (fun _ _ => hvalue)

theorem ClausesOf.merge (h : ClausesOf allowed clauses) (hop : ∀ op, allowed (.operator op))
    {payload : Clauses} (hpayload : OfKinds Operator.key Operator.Fits payload) :
    ClausesOf allowed (Value.mergeEntries clauses payload) := by
  have hincoming : ClausesOf allowed payload := by
    refine ⟨hpayload.1, fun e he => ?_⟩
    obtain ⟨op, hkey, hfits⟩ := hpayload.2 e he
    exact ⟨.operator op, hkey, hop op, hfits⟩
  apply Value.OfKinds.merge ClauseKind.key_injective h hincoming
  rintro e he kind old hkey ⟨-, hold⟩ ⟨hkind, hnew⟩
  -- Only operators come in, so the kind that the key belongs to is one.
  obtain ⟨op, hop, -⟩ := hpayload.2 e he
  obtain rfl : kind = .operator op := ClauseKind.key_injective (hkey.symm.trans hop)
  exact ⟨hkind, Operator.Fits.merge hold hnew⟩

/-! ## The finished clauses -/

theorem ClausesOf.resolve (h : ClausesOf allowed clauses) :
    Distinct (Value.resolveEntries clauses) ∧ ∀ c ∈ Value.resolveEntries clauses,
      ∃ kind, allowed kind ∧ c.1 = kind.key ∧ Grammar.Clause c.1 c.2 := by
  refine ⟨Value.distinct_resolveEntries h.1, fun c hc => ?_⟩
  rw [Value.resolveEntries_eq_map] at hc
  obtain ⟨e, he, rfl⟩ := List.mem_map.1 hc
  obtain ⟨kind, hkey, hallowed, hfits⟩ := h.2 e he
  refine ⟨kind, hallowed, hkey, ?_⟩
  rw [hkey]
  exact ClauseKind.Fits.resolve hfits

theorem ClausesOf.group (h : ClausesOf allowed clauses) :
    Grammar.Group (Value.object clauses).resolve := by
  obtain ⟨hdistinct, heach⟩ := h.resolve
  refine .mk hdistinct (fun c hc => ?_)
  obtain ⟨_, _, _, hclause⟩ := heach c hc
  exact hclause

theorem ClausesOf.query (h : ClausesOf (Finishes true) clauses) :
    Grammar.Query (Value.object clauses).resolve := by
  obtain ⟨hdistinct, heach⟩ := h.resolve
  refine .mk hdistinct (fun c hc => ?_) (fun c hc => ?_)
  · obtain ⟨kind, hkind, hkey, -⟩ := heach c hc
    rw [hkey]
    cases kind <;> simp_all [Finishes, Stores, ClauseKind.key]
  · obtain ⟨_, _, _, hclause⟩ := heach c hc
    exact hclause

theorem group_payload {field : Field} (h : field.Sound) :
    Grammar.Group (Value.object field.payload).resolve := by
  have hmerge : ClausesOf (fun _ => True) (Value.mergeEntries [] field.payload) :=
    ClausesOf.merge ofKinds_nil (fun _ => trivial) h.payload
  rw [Value.mergeEntries_nil_left h.payload.1] at hmerge
  exact hmerge.group

theorem ClausesOf.place {isRoot : Bool} (h : ClausesOf (Finishes isRoot) clauses) {field : Field}
    (hfield : field.Sound) (hrouted : isRoot = true → field.occur ≠ none) :
    ClausesOf (Finishes isRoot) (place clauses field) := by
  unfold Draft.place
  split
  · exact h.appendToGroup (Or.inr trivial) _ (group_payload hfield)
  · rename_i hnone
    have hgroup : isRoot = false := by
      cases isRoot with
      | false => rfl
      | true => exact absurd hnone (hrouted rfl)
    exact h.merge (fun _ => Or.inl hgroup) hfield.payload

theorem Sound.finishes {draft : Draft} (h : draft.Sound) :
    ClausesOf (Finishes draft.isRoot) draft.clauses := by
  refine ⟨h.clauses.1, fun e he => ?_⟩
  obtain ⟨kind, hkey, hstores, hfits⟩ := h.clauses.2 e he
  exact ⟨kind, hkey, Or.inr hstores, hfits⟩

theorem Sound.allClauses {draft : Draft} (h : draft.Sound) :
    ClausesOf (Finishes draft.isRoot) draft.allClauses := by
  have hplace : ∀ (fields : List Field) (clauses : Clauses),
      ClausesOf (Finishes draft.isRoot) clauses → (∀ field ∈ fields, field.Sound) →
      (draft.isRoot = true → ∀ field ∈ fields, field.occur ≠ none) →
      ClausesOf (Finishes draft.isRoot) (fields.foldl Draft.place clauses) := by
    intro fields
    induction fields with
    | nil => exact fun _ h _ _ => h
    | cons field rest ih =>
      intro clauses hclauses hfields hrouted
      rw [List.forall_mem_cons] at hfields
      refine ih _ (hclauses.place hfields.1 ?_) hfields.2 ?_
      · exact fun hroot => hrouted hroot field List.mem_cons_self
      · exact fun hroot next hnext => hrouted hroot next (List.mem_cons_of_mem _ hnext)
  exact hplace draft.fields draft.clauses h.finishes h.fields h.routed

theorem Sound.group_clauseDocument {draft : Draft} (h : draft.Sound) :
    Grammar.Group draft.clauseDocument := h.allClauses.group

theorem Sound.sortDocument {draft : Draft} (h : draft.Sound) (hne : draft.sort ≠ []) :
    draft.sortDocument.ListOf Grammar.SortEntry := by
  have hentries : (Value.array (draft.sort.map (fun entry => .pair entry.1 entry.2))).ListOf
      (fun value => ∃ field criterion, value = .pair field (.object criterion)) := by
    refine ⟨_, rfl, by simpa using hne, fun value hvalue => ?_⟩
    obtain ⟨entry, hentry, rfl⟩ := List.mem_map.1 hvalue
    obtain ⟨criterion, hcriterion⟩ := h.sort entry hentry
    exact ⟨entry.1, criterion, by rw [hcriterion]⟩
  refine hentries.resolve (fun value hvalue => ?_)
  obtain ⟨field, criterion, rfl⟩ := hvalue
  exact ⟨field, _, rfl⟩

theorem Sound.root_document {draft : Draft} (h : draft.Sound) (hroot : draft.isRoot = true) :
    Grammar.Root draft.document := by
  have hclauses := h.allClauses
  rw [hroot] at hclauses
  unfold Draft.document
  rw [if_pos hroot]
  split
  · exact .unsorted hclauses.query
  · rename_i hsort
    exact .sorted hclauses.query (h.sortDocument (by simpa using hsort))

end Draft

/-! ## Edits -/

def Edit.Sound : Edit → Prop
  | .clause key content => ∃ kind : ClauseKind,
      (kind = .queryString ∨ kind = .multiMatch) ∧ key = kind.key ∧ kind.Fits content
  | .entry _ item => Grammar.Group item
  | .declare _ _ => True
  | .filtered item => Grammar.Filtered item
  | .aggregations _ => True
  | .sort _ criterion => ∃ entries, criterion = .object entries

namespace Draft

variable {draft : Draft}

theorem Sound.with_clauses (h : draft.Sound) {clauses : Clauses}
    (hclauses : ClausesOf (Stores draft.isRoot) clauses) :
    Sound { draft with clauses := clauses } := { h with clauses := hclauses }

theorem Sound.addToGroup (h : draft.Sound) (occur : Occur) {entry : Document}
    (hentry : Grammar.Group entry) : (draft.addToGroup occur entry).Sound := by
  apply h.with_clauses
  apply h.clauses.appendToGroup trivial
  rwa [Document.resolve_toValue]

theorem Sound.store (h : draft.Sound) (kind : ClauseKind) (hkind : Stores draft.isRoot kind)
    {value : Value} (hvalue : kind.Fits value) : (draft.store kind.key value).Sound :=
  h.with_clauses (h.clauses.insert hkind hvalue)

theorem Sound.addClause (h : draft.Sound) {kind : ClauseKind}
    (hkind : kind = .queryString ∨ kind = .multiMatch) {value : Value} (hvalue : kind.Fits value) :
    (draft.addClause kind.key value).Sound := by
  have hstores : Stores false kind := by rcases hkind with rfl | rfl <;> rfl
  unfold Draft.addClause
  split
  · have hgroup : (Draft.group.store kind.key value).Sound :=
      (sound_new false).store kind hstores hvalue
    exact h.addToGroup .must hgroup.group_clauseDocument
  · rename_i hroot
    rw [Bool.not_eq_true] at hroot
    exact h.store kind (by rwa [hroot]) hvalue

theorem Sound.addField (h : draft.Sound) (name : String) (steps : List FieldStep) :
    (draft.addField (FieldStep.runAll steps (draft.newField name)).state).Sound := by
  have hfield : (FieldStep.runAll steps (draft.newField name)).state.Sound :=
    (Field.sound_new name _).runAll steps
  refine { h with fields := ?_, routed := ?_ }
  · intro field hmem
    rcases List.mem_append.1 hmem with hmem | hmem
    · exact h.fields field hmem
    · rw [List.mem_singleton.1 hmem]
      exact hfield
  · intro hroot field hmem
    rcases List.mem_append.1 hmem with hmem | hmem
    · exact h.routed hroot field hmem
    · rw [List.mem_singleton.1 hmem]
      apply Field.occur_runAll_ne_none
      have hisRoot : draft.isRoot = true := hroot
      simp [Draft.newField, hisRoot]

theorem Sound.apply (h : draft.Sound) {edit : Edit} (hedit : edit.Sound) :
    (edit.apply draft).Sound := by
  cases edit with
  | clause key content =>
    obtain ⟨kind, hkind, rfl, hfits⟩ := hedit
    exact h.addClause hkind hfits
  | entry occur item => exact h.addToGroup occur hedit
  | declare name steps => exact h.addField name steps
  | filtered item =>
    apply h.with_clauses
    apply h.clauses.append_filtered trivial
    rwa [Document.resolve_toValue]
  | aggregations found =>
    rw [Edit.apply]
    split
    · exact h
    · exact h.store .aggs trivial ⟨found, rfl⟩
  | sort key criterion =>
    refine { h with sort := ?_ }
    intro entry hmem
    rcases List.mem_append.1 hmem with hmem | hmem
    · exact h.sort entry hmem
    · rw [List.mem_singleton.1 hmem]
      exact hedit

theorem Sound.applyAll (h : draft.Sound) {edits : List Edit} (hedits : ∀ edit ∈ edits, edit.Sound) :
    (Edit.applyAll edits draft).Sound :=
  Edit.applyAll_induction h (fun edit hedit _ hdraft => hdraft.apply (hedits edit hedit))

end Draft

theorem Draft.root_build {procedure : List Step} {d : Document}
    (hedits : ∀ edit ∈ procedure.filterMap Step.edit?, edit.Sound) (h : build procedure = .ok d) :
    Grammar.Root d := by
  have hdraft := (Draft.sound_new true).applyAll hedits
  rw [build_eq_ok h]
  exact hdraft.root_document (by rw [Edit.isRoot_applyAll])

/-! ## Filters -/

theorem Filter.filtered_document {filter : Filter} (hdraft : filter.draft.Sound)
    (hquery : ∀ d ∈ filter.query, Grammar.Root d) : Grammar.Filtered filter.document := by
  have hgroup := hdraft.group_clauseDocument
  have hne : filter.draft.clauseDocument.entries ≠ [] →
      filter.draft.clauseDocument ≠ .object [] := by
    intro hentries hempty
    rw [hempty] at hentries
    exact hentries rfl
  unfold Filter.document
  cases hq : filter.query with
  | none =>
    simp only [Option.elim_none]
    split
    · exact .empty
    · rename_i hentries
      exact .filter hgroup (hne (by simpa using hentries))
  | some d =>
    have hroot := hquery d (by rw [hq]; rfl)
    obtain ⟨entries, rfl, hfilter⟩ : ∃ entries, d = .object entries ∧ "filter" ∉ keys entries := by
      cases hroot with
      | unsorted => exact ⟨_, rfl, by simp⟩
      | sorted => exact ⟨_, rfl, by simp⟩
    change Grammar.Filtered (.object (if filter.draft.clauseDocument.entries.isEmpty then entries
      else Entries.insert "filter" filter.draft.clauseDocument entries))
    split
    · exact .query hroot
    · rename_i hentries
      rw [Entries.insert, update_of_not_mem hfilter]
      exact .both hroot hgroup (hne (by simpa using hentries))

/-! ## All programs -/

theorem queryString_hasKey {text : String} {options : Document} {content : Value}
    (h : queryString text options = .ok content) : content.HasKey "query" := by
  unfold queryString at h
  cases hoptions : readOptions "query_string" options with
  | error error => simp [hoptions, bind, Except.bind] at h
  | ok read =>
    simp only [hoptions, bind, Except.bind] at h
    split at h
    · simp at h
    · rw [← Except.ok.inj h]
      exact ⟨_, rfl, mem_keys_update.2 (Or.inl rfl)⟩

theorem multiMatch_hasKey {text : String} {fields : List String} {options : Document}
    {content : Value} (h : multiMatch text fields options = .ok content) :
    content.HasKey "query" ∧ content.HasKey "fields" := by
  unfold multiMatch at h
  cases hoptions : readOptions "multi_match" options with
  | error error => simp [hoptions, bind, Except.bind] at h
  | ok read =>
    simp only [hoptions, bind, Except.bind, Except.ok.injEq] at h
    rw [← h]
    refine ⟨⟨_, rfl, ?_⟩, ⟨_, rfl, mem_keys_update.2 (Or.inl rfl)⟩⟩
    exact mem_keys_update.2 (Or.inr (mem_keys_update.2 (Or.inl rfl)))

theorem sortCriterion_object {criteria : Document} {criterion : Value}
    (h : sortCriterion criteria = .ok criterion) : ∃ entries, criterion = .object entries := by
  unfold sortCriterion at h
  split at h
  · exact ⟨_, (Except.ok.inj h).symm⟩
  · split at h
    · exact ⟨_, (Except.ok.inj h).symm⟩
    · simp at h
  · split at h
    · exact ⟨_, (Except.ok.inj h).symm⟩
    · simp at h
  · simp at h

theorem mem_toOption_map {ε α β : Type} {checked : Except ε α} {f : α → β} {b : β} :
    b ∈ checked.toOption.map f ↔ ∃ a, checked = .ok a ∧ f a = b := by
  cases checked <;> simp [Except.toOption]

theorem eq_filtered_of_mem {built : Except QueryError Document} :
    ∀ edit ∈ built.toOption.map Edit.filtered, ∃ item, edit = .filtered item := by
  intro edit hedit
  obtain ⟨item, -, rfl⟩ := mem_toOption_map.1 hedit
  exact ⟨item, rfl⟩

theorem Edit.sound_filtered {body : List FilterStep}
    (hedits : ∀ edit ∈ body.filterMap FilterStep.edit?, edit.Sound)
    (hqueries : ∀ d ∈ body.filterMap FilterStep.query?, Grammar.Root d) :
    ∀ edit ∈ (buildFilter body).toOption.map Edit.filtered, edit.Sound := by
  intro edit hedit
  obtain ⟨d, hd, rfl⟩ := mem_toOption_map.1 hedit
  rw [buildFilter_eq_ok hd]
  apply Filter.filtered_document ((Draft.sound_new false).applyAll hedits)
  exact fun q hq => hqueries q (List.mem_of_getLast? hq)

-- The induction is on the nesting of bodies: the document of a body is sound because the edits of
-- its steps are.
mutual

theorem Call.sound_edit : (call : Call) → ∀ edit ∈ call.edit?, edit.Sound
  | .queryString text options => by
    intro edit hedit
    obtain ⟨content, hcontent, rfl⟩ := mem_toOption_map.1 hedit
    exact ⟨.queryString, Or.inl rfl, rfl, queryString_hasKey hcontent⟩
  | .multiMatch text fields options => by
    intro edit hedit
    obtain ⟨content, hcontent, rfl⟩ := mem_toOption_map.1 hedit
    exact ⟨.multiMatch, Or.inr rfl, rfl, multiMatch_hasKey hcontent⟩
  | .group occur body => by
    intro edit hedit
    obtain ⟨d, hd, rfl⟩ := mem_toOption_map.1 hedit
    have hdraft := (Draft.sound_new false).applyAll (Step.sound_edits body)
    rw [buildGroup_eq_ok hd, Draft.document, Edit.isRoot_applyAll]
    exact hdraft.group_clauseDocument
  | .field name steps => by
    intro edit hedit
    obtain rfl := Option.some.inj hedit
    trivial
  | .named name arguments steps => by
    intro edit hedit
    obtain ⟨resolved, -, rfl⟩ := mem_toOption_map.1 hedit
    trivial
  | .aggregate body => by
    intro edit hedit
    obtain ⟨found, -, rfl⟩ := mem_toOption_map.1 hedit
    trivial
  | .sort key criteria => by
    intro edit hedit
    obtain ⟨criterion, hcriterion, rfl⟩ := mem_toOption_map.1 hedit
    exact sortCriterion_object hcriterion
  | .fail _ => by simp [Call.edit?]
  | .note _ => by simp [Call.edit?]
  | .probe => by simp [Call.edit?]

theorem Step.sound_edit : (step : Step) → ∀ edit ∈ step.edit?, edit.Sound
  | .call inner => inner.sound_edit
  | .filter body => by
    obtain ⟨hedits, hqueries⟩ := FilterStep.sound_edits body
    exact Edit.sound_filtered hedits hqueries
  | .attempt inner => inner.sound_edit

theorem FilterStep.sound_edit : (step : FilterStep) →
    (∀ edit ∈ step.edit?, edit.Sound) ∧ ∀ d ∈ step.query?, Grammar.Root d
  | .call inner => ⟨inner.sound_edit, by simp [FilterStep.query?]⟩
  | .filter _ => by simp [FilterStep.edit?, FilterStep.query?]
  | .draftFilter body => by
    obtain ⟨hedits, hqueries⟩ := FilterStep.sound_edits body
    exact ⟨Edit.sound_filtered hedits hqueries, by simp [FilterStep.query?]⟩
  | .query body => by
    refine ⟨by simp [FilterStep.edit?], fun d hd => ?_⟩
    have hbuild : build body = .ok d := by
      unfold FilterStep.query? at hd
      cases hb : build body with
      | error error => simp [hb, Except.toOption] at hd
      | ok d' => rw [hb] at hd; rw [Option.some.inj hd]
    exact Draft.root_build (Step.sound_edits body) hbuild
  | .attempt inner => inner.sound_edit

theorem Step.sound_edits : (steps : List Step) →
    ∀ edit ∈ steps.filterMap Step.edit?, edit.Sound
  | [] => by simp
  | step :: rest => by
    have hstep := step.sound_edit
    have hrest := Step.sound_edits rest
    intro edit hedit
    obtain ⟨s, hs, hmem⟩ := List.mem_filterMap.1 hedit
    rcases List.mem_cons.1 hs with rfl | hs
    · exact hstep edit hmem
    · exact hrest edit (List.mem_filterMap.2 ⟨s, hs, hmem⟩)

theorem FilterStep.sound_edits : (steps : List FilterStep) →
    (∀ edit ∈ steps.filterMap FilterStep.edit?, edit.Sound) ∧
      ∀ d ∈ steps.filterMap FilterStep.query?, Grammar.Root d
  | [] => by simp
  | step :: rest => by
    have hstep := step.sound_edit
    have hrest := FilterStep.sound_edits rest
    constructor
    · intro edit hedit
      obtain ⟨s, hs, hmem⟩ := List.mem_filterMap.1 hedit
      rcases List.mem_cons.1 hs with rfl | hs
      · exact hstep.1 edit hmem
      · exact hrest.1 edit (List.mem_filterMap.2 ⟨s, hs, hmem⟩)
    · intro d hd
      obtain ⟨s, hs, hmem⟩ := List.mem_filterMap.1 hd
      rcases List.mem_cons.1 hs with rfl | hs
      · exact hstep.2 d hmem
      · exact hrest.2 d (List.mem_filterMap.2 ⟨s, hs, hmem⟩)

end

/-- Every state that steps can reach is sound, that in which a run has failed among them. -/
theorem Step.sound_runAll (steps : List Step) {draft : Draft} (h : draft.Sound) :
    (Step.runAll steps draft).state.Sound := by
  rw [Step.runAll_eq]
  refine Outcome.runAll_induction (P := Draft.Sound) h (fun step _ draft hdraft => ?_)
  rw [step.run_state]
  cases hedit : step.edit? with
  | none => exact hdraft
  | some edit => exact hdraft.apply (step.sound_edit edit hedit)

/-- What a procedure builds follows the grammar. -/
theorem root_of_build {procedure : List Step} {d : Document} (h : build procedure = .ok d) :
    Grammar.Root d :=
  Draft.root_build (Step.sound_edits procedure) h

/-- A filter that holds a sorted query and two fields of one name, which are merged. -/
theorem root_of_build_filtered :
    let procedure : List Step :=
      [ .call (.field "status" [.is (.string "active")]),
        .filter
          [ .query [.call (.sort "created" (.object []))],
            .call (.field "age" [.gt (.string "a")]),
            .call (.field "age" [.lt (.string "k")]) ],
        .call (.sort "created" (.object [])) ]
    let document : Document := .object
      [ ("query", .object
          [ ("filtered", .array
              [.object
                [ ("query", .object []),
                  ("sort", .array [.object [("created", .object [])]]),
                  ("filter", .object
                    [("range", .object
                      [("age", .object [("gt", .string "a"), ("lt", .string "k")])])]) ]]),
            ("bool", .object
              [("must", .array
                [.object [("term", .object [("status", .string "active")])]])]) ]),
        ("sort", .array [.object [("created", .object [])]]) ]
    build procedure = .ok document ∧ Grammar.Root document := by
  intro procedure document
  have hbuild : build procedure = .ok document := rfl
  exact ⟨hbuild, root_of_build hbuild⟩

/-- A bare operator is no clause of a root. -/
example : ¬ Grammar.Root (.object [("query", .object [("term", .object [("a", .null)])])]) := by
  rintro ⟨⟨-, named, -⟩⟩
  simpa using named _ List.mem_cons_self

end SearchQuery
