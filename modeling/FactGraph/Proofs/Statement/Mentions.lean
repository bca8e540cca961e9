import FactGraph.Proofs.Statement.Rendering

/-! # Inputs that a statement mentions

A statement pins every input that has parameters, and selects whatever slots are outputs, without a
look at what it joins. Of the inputs it joins only the one to select from. So it mentions a table
that it does not introduce as soon as it pins a second input.

* `Plan.Layout.mentions_iff`: a statement introduces what it mentions if it pins a single slot.
* `Specification.mentions_introduced_iff`: so does every page of an accepted specification. -/

namespace FactGraph

namespace Plan

variable {count root : Nat} {seen : List Nat} {parameters : List Parameter}

/-! ### Slots of edges -/

theorem AllOpen.not_mem : ∀ {edges : List Edge} {seen : List Nat}, AllOpen count seen edges →
    ∀ i ∈ edges.map Edge.index, count + i ∉ seen
  | edge :: rest, seen, ⟨ho, hrest⟩, i, hi => by
    rcases List.mem_cons.mp hi with rfl | hi
    · exact ho.own.2
    · exact fun hm => hrest.not_mem i hi (List.mem_append_left _ hm)

theorem AllOpen.mem_ends : ∀ {edges : List Edge} {seen : List Nat}, AllOpen count seen edges →
    ∀ s ∈ ends edges, s ∈ seen ∨ ∃ i ∈ edges.map Edge.index, s = count + i
  | edge :: rest, seen, ⟨ho, hrest⟩, s, hs => by
    have hfirst : ∀ s ∈ edge.slots,
        s ∈ seen ∨ ∃ i ∈ (edge :: rest).map Edge.index, s = count + i := fun s hm =>
      (ho.mem_or_eq hm).imp_right fun he => ⟨edge.index, List.mem_cons_self, he⟩
    rcases List.mem_append.mp hs with hs | hs
    · exact hfirst s hs
    · rcases hrest.mem_ends s hs with hm | ⟨i, hi, he⟩
      · exact (List.mem_append.mp hm).elim Or.inl (hfirst s)
      · exact Or.inr ⟨i, List.mem_cons_of_mem _ hi, he⟩

theorem fact_mem_tablesOf {indices : List Nat} {s : Nat} :
    Alias.fact s ∈ tablesOf count indices ↔ ∃ i ∈ indices, s = count + i := by
  simp [tablesOf]

/-! ### Pinned inputs -/

theorem Input.aliases_of_mem_pins {input : Input} {test : Test} (h : test ∈ input.pins) :
    test.aliases = [.fact input.slot] := by
  unfold pins at h
  split at h
  · rcases List.mem_cons.mp h with rfl | h
    · rfl
    · rw [List.mem_singleton.mp h]
      rfl
  · cases h

/-- **An input that has got its parameters is pinned by them**, if it had none at the start. -/
theorem Input.DerivesFrom.exists_pins {start input : Input} (h : start.DerivesFrom parameters input)
    (hn : start.typeParameter = none) (ht : input.typeParameter.isSome = true) :
    ∃ id position position', start.typeId = some id ∧
      parameterAt parameters position = some (.integer id) ∧
      parameterAt parameters position' = some (.text start.hash) ∧
      input.pins = [.is ⟨.fact input.slot, .factTypeId⟩ position,
        .is ⟨.fact input.slot, .hash⟩ position'] := by
  obtain rfl | ⟨id, position, position', hid, hp, hp', rfl⟩ := h
  · rw [hn] at ht
    cases ht
  · exact ⟨id, position, position', hid, hp, hp', rfl⟩

/-! ### What a statement mentions -/

variable {plan : Plan} {inputs : List Input} {statement : Statement}

theorem StatedBy.mem_mentions_iff (hs : plan.StatedBy count root statement) {a : Alias} :
    a ∈ statement.mentions ↔ (∃ output ∈ plan.outputs, .fact output.slot = a) ∨
      ∃ test ∈ statement.tests, a ∈ test.aliases := by
  simp [Statement.mentions, hs.slots]

namespace Layout

theorem exists_test (h : plan.Layout inputs) (hn : ∀ input ∈ inputs, input.typeParameter = none)
    (hs : plan.StatedBy count root statement) {input : Input} (hi : input ∈ plan.inputs)
    (ht : input.typeParameter.isSome = true) :
    ∃ test ∈ statement.tests, test.aliases = [.fact input.slot] := by
  obtain ⟨start, hstart, hd⟩ := h.derives.exists_start hi
  obtain ⟨id, position, position', -, -, -, hpins⟩ := hd.exists_pins (hn start hstart) ht
  rw [hs.tests]
  exact ⟨_, List.mem_flatMap.mpr ⟨input, hi, hpins ▸ List.mem_cons_self⟩, rfl⟩

/-- Of the inputs, a statement introduces only the one that it selects from: no edge has the slot of
an input for its own. -/
theorem slot_eq_root (h : plan.Layout inputs) (hs : plan.StatedBy inputs.length root statement)
    {input : Input} (hi : input ∈ plan.inputs) (hm : .fact input.slot ∈ statement.tables) :
    input.slot = root := by
  rw [hs.tables, List.mem_cons, fact_mem_tablesOf] at hm
  rcases hm with he | ⟨i, hedge, he⟩
  · exact Alias.fact.inj he
  · have hopen := (Group.linked_iff.mp h.linked).1
    refine absurd ?_ (hopen.not_mem i hedge)
    rw [← he, ← h.derives.map_slot]
    exact List.mem_map_of_mem hi

/-- A slot that is selected is introduced, or belongs to an input that has its parameters. -/
theorem introduced_or_pinned (h : plan.Layout inputs)
    (hs : plan.StatedBy inputs.length root statement) {output : Output}
    (ho : output ∈ plan.outputs) : .fact output.slot ∈ statement.tables ∨
      ∃ input ∈ plan.inputs, input.slot = output.slot ∧ input.typeParameter.isSome = true := by
  obtain ⟨hjoined, hset⟩ := h.selects output ho
  have hopen := (Group.linked_iff.mp h.linked).1
  rcases hjoined with hm | hm
  · exact Or.inr (h.exists_pinned hm hset)
  · rcases hopen.mem_ends _ hm with hm | hm
    · exact Or.inr (h.exists_pinned hm hset)
    · exact Or.inl (hs.tables ▸ List.mem_cons_of_mem _ (fact_mem_tablesOf.mpr hm))

/-- **A statement introduces what it mentions exactly if it pins a single slot.** -/
theorem mentions_iff (h : plan.Layout inputs) (hn : ∀ input ∈ inputs, input.typeParameter = none)
    (hc : plan.Connected root) (hs : plan.StatedBy inputs.length root statement) :
    (∀ a ∈ statement.mentions, a ∈ statement.tables) ↔
      ∃ slot, ∀ test ∈ statement.tests, test.aliases = [.fact slot] := by
  constructor
  · refine fun hall => ⟨root, fun test ht => ?_⟩
    have hpin := ht
    rw [hs.tests] at hpin
    obtain ⟨input, hi, hpin⟩ := List.mem_flatMap.mp hpin
    have haliases := Input.aliases_of_mem_pins hpin
    have hmentioned := hs.mem_mentions_iff.mpr (Or.inr ⟨test, ht, haliases ▸ List.mem_cons_self⟩)
    rw [haliases, h.slot_eq_root hs hi (hall _ hmentioned)]
  · rintro ⟨slot, hall⟩
    have hpinned : ∀ input ∈ plan.inputs, input.typeParameter.isSome = true →
        input.slot = slot := by
      intro input hi ht
      obtain ⟨test, htest, ha⟩ := h.exists_test hn hs hi ht
      simpa using ha.symm.trans (hall test htest)
    obtain ⟨source, hsource, hroot, htype⟩ := h.exists_pinned_root hc.root_eq
    have hintroduced : .fact slot ∈ statement.tables := by
      rw [← hpinned source hsource htype, hroot, hs.tables]
      exact List.mem_cons_self
    intro a ha
    rcases hs.mem_mentions_iff.mp ha with ⟨output, ho, rfl⟩ | ⟨test, ht, ha⟩
    · rcases h.introduced_or_pinned hs ho with hm | ⟨input, hi, he, ht⟩
      · exact hm
      · rw [← he, hpinned input hi ht]
        exact hintroduced
    · rw [hall test ht, List.mem_singleton] at ha
      exact ha ▸ hintroduced

end Layout

end Plan

/-! ### The pages of a specification -/

namespace Specification

/-- **Every input that a page mentions is joined exactly if the page pins a single slot.** -/
theorem mentions_introduced_iff {spec : Specification} (ha : spec.Accepted) {schema : Schema}
    {start : List FactReference} {bookmarks : List FactBookmark} {limit : Nat} {plans : List Plan}
    (hp : spec.plans schema start = .ok plans) {queries : List SqlQuery}
    (h : spec.pages schema start bookmarks limit = .ok queries) :
    ∀ query ∈ queries, ∃ plan ∈ plans, ∃ bookmark statement,
      plan.statement bookmark = .ok statement ∧ query.sql = statement.render ∧
      ((∀ a ∈ statement.mentions, a ∈ statement.tables) ↔
        ∃ slot, ∀ test ∈ statement.tests, test.aliases = [.fact slot]) := by
  intro query hm
  obtain ⟨plan, hmem, root, bookmark, statement, hc, hs, hstated, rfl⟩ :=
    exists_statement_of_mem_pages ha.check hp h query hm
  obtain ⟨hl, -⟩ := layout_of_mem_plans ha.check hp plan hmem
  refine ⟨plan, hmem, bookmark, statement, hs, rfl, hl.mentions_iff (fun input hi => ?_) hc hstated⟩
  obtain ⟨i, label, ref, -, -, rfl⟩ := mem_inputs hi
  rfl

theorem mentions_introduced_withoutDeletion : ∃ queries,
    (projectsWhere false [deletion]).pages Schema.single [⟨"Root", "r"⟩] [] 10 = .ok queries ∧
      queries.length = 2 ∧ ∀ query ∈ queries, ∃ statement : Statement,
        query.sql = statement.render ∧ ∀ a ∈ statement.mentions, a ∈ statement.tables := by
  obtain ⟨queries, hpages, hlen⟩ : ∃ queries,
      (projectsWhere false [deletion]).pages Schema.single [⟨"Root", "r"⟩] [] 10 = .ok queries ∧
        queries.length = 2 := by
    unfold pages
    rw [plans_withoutDeletion]
    exact ⟨_, rfl, rfl⟩
  refine ⟨queries, hpages, hlen, fun query hm => ?_⟩
  obtain ⟨plan, hplan, bookmark, statement, hs, hquery, hiff⟩ :=
    mentions_introduced_iff accepted_withoutDeletion plans_withoutDeletion hpages query hm
  refine ⟨statement, hquery, hiff.mpr ⟨1, ?_⟩⟩
  obtain rfl | rfl : plan = deletedPlan ∨ plan = undeletedPlan := by simpa using hplan
  · cases hs
    show ∀ test ∈ deletedPlan.inputs.flatMap Plan.Input.pins, test.aliases = [.fact 1]
    decide
  · cases hs
    show ∀ test ∈ undeletedPlan.inputs.flatMap Plan.Input.pins, test.aliases = [.fact 1]
    decide

/-- The facts of a given label as an unknown, beside what refers to another given label. -/
def aliasBesideReference : Specification :=
  ⟨[⟨"a", "A"⟩, ⟨"b", "B"⟩], [⟨⟨"x", "A"⟩, [.path ⟨[], "a", []⟩]⟩,
    referring "y" "Y" "b" "b" "B"], []⟩

/-- The plan selects the slot of the first input, and only joins the second one. -/
def aliasBesideReferencePlan : Plan where
  inputs := [⟨"a", 1, some 1, "a", some 1, some 2⟩, ⟨"b", 2, some 1, "b", some 3, some 4⟩]
  parameters := [.integer 1, .text "a", .integer 1, .text "b", .integer 1]
  outputs := [⟨"x", "A", 1⟩, ⟨"y", "Y", 3⟩]
  facts := [⟨1, "A"⟩, ⟨2, "B"⟩, ⟨3, "Y"⟩]
  edges := [⟨1, 2, 3, 5⟩]
  groups := []

/-- **Not every input that a page mentions is joined.** -/
theorem not_forall_mentions_introduced : ¬ ∀ (spec : Specification) (schema : Schema)
    (start : List FactReference) (bookmarks : List FactBookmark) (limit : Nat) (plans : List Plan)
    (queries : List SqlQuery), spec.Accepted → spec.plans schema start = .ok plans →
    spec.pages schema start bookmarks limit = .ok queries →
    ∀ query ∈ queries, ∃ plan ∈ plans, ∃ bookmark statement,
      plan.statement bookmark = .ok statement ∧ query.sql = statement.render ∧
      ∀ a ∈ statement.mentions, a ∈ statement.tables := by
  intro h
  have hplans : aliasBesideReference.plans Schema.single [⟨"A", "a"⟩, ⟨"B", "b"⟩] =
      .ok [aliasBesideReferencePlan] := by decide +kernel
  obtain ⟨queries, hpages, query, hm⟩ : ∃ queries, aliasBesideReference.pages Schema.single
      [⟨"A", "a"⟩, ⟨"B", "b"⟩] [] 10 = .ok queries ∧ ∃ query, query ∈ queries := by
    unfold pages
    rw [hplans]
    exact ⟨_, rfl, _, List.mem_cons_self⟩
  obtain ⟨plan, hplan, bookmark, statement, hs, -, hall⟩ :=
    h _ _ _ _ _ _ _ (accepted_of_isPrintable rfl rfl) hplans hpages query hm
  obtain rfl := List.mem_singleton.mp hplan
  cases hs
  have hintroduced := hall (.fact 1) (by simp [Statement.mentions, aliasBesideReferencePlan])
  simp [Statement.tables, Plan.Edge.joinSuccessor] at hintroduced

end Specification

end FactGraph
