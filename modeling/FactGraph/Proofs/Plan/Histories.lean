import FactGraph.Proofs.Plan.Linked
import FactGraph.Proofs.Plan.Parameters
import FactGraph.Proofs.Plan.Refusals
import FactGraph.Proofs.Plan.Runs

/-! # Histories of plans

A history starts from a plan without edges. Every step of it applies an operation to any of the
plans produced so far, and what an operation makes stands next to the plan that it was made of.
Throughout a history the edges of all branches of a plan are numbered without gaps, in the order in
which they were appended, and so are its slots.

* `Plan.gainsEdge_of_addEdge`, `Plan.gainsGroup_of_addGroup`: what the operations at a path change.
* `Plan.Numbered.apply`: an operation keeps a plan numbered.
* `Plan.numbered_of_mem_history`: every plan of a history is numbered. -/

namespace FactGraph.Plan

/-! ### The edges of a branch -/

namespace Group

variable {path other : List Nat} {first index : Nat} {group added : Group} {edges more : List Edge}

/-- A path leads to a branch with these edges of its own. -/
def HasEdges (path : List Nat) (group : Group) (edges : List Edge) : Prop :=
  ∃ branch, Leads path group branch ∧ branch.edges = edges

theorem hasEdges_nil_iff : HasEdges [] group edges ↔ group.edges = edges :=
  ⟨by rintro ⟨_, rfl, h⟩; exact h, fun h => ⟨group, rfl, h⟩⟩

theorem hasEdges_cons_iff : HasEdges (index :: path) group edges ↔
    ∃ inner ∈ group.groups[index]?, HasEdges path inner edges := by
  constructor
  · rintro ⟨branch, ⟨inner, hi, hl⟩, h⟩
    exact ⟨inner, hi, branch, hl, h⟩
  · rintro ⟨inner, hi, branch, hl, h⟩
    exact ⟨branch, ⟨inner, hi, hl⟩, h⟩

theorem HasEdges.unique : ∀ {path : List Nat} {group : Group}, HasEdges path group edges →
    HasEdges path group more → edges = more
  | [], group, h, h' => (hasEdges_nil_iff.mp h).symm.trans (hasEdges_nil_iff.mp h')
  | index :: path, group, h, h' => by
    obtain ⟨inner, hi, h⟩ := hasEdges_cons_iff.mp h
    obtain ⟨inner', hi', h'⟩ := hasEdges_cons_iff.mp h'
    obtain rfl := Option.some_inj.mp (hi.symm.trans hi')
    exact h.unique h'

theorem mem_edgesWithin_of_hasEdges : ∀ {path : List Nat} {group : Group},
    HasEdges path group edges → ∀ edge ∈ edges, edge ∈ group.edgesWithin
  | [], group, h, edge, hm => by
    rw [← hasEdges_nil_iff.mp h] at hm
    rw [edgesWithin_eq]
    exact List.mem_append_left _ hm
  | index :: path, group, h, edge, hm => by
    obtain ⟨inner, hi, h⟩ := hasEdges_cons_iff.mp h
    rw [edgesWithin_eq, edgesWithinAll_eq]
    exact List.mem_append_right _ (List.mem_flatMap.mpr
      ⟨inner, List.mem_of_getElem? hi, mem_edgesWithin_of_hasEdges h edge hm⟩)

theorem hasEdges_grow_self : ∀ {path : List Nat} {group : Group}, HasEdges path group edges →
    HasEdges path (grow added path group) (edges ++ added.edges)
  | [], group, h => by
    rw [hasEdges_nil_iff] at h ⊢
    rw [grow, edges_append, h]
  | index :: path, group, h => by
    obtain ⟨inner, hi, h⟩ := hasEdges_cons_iff.mp h
    exact hasEdges_cons_iff.mpr ⟨grow added path inner,
      (getElem?_groups_grow hi).trans (congrArg some (if_pos rfl)), hasEdges_grow_self h⟩

theorem hasEdges_grow_cons_iff (h : ∀ inner ∈ group.groups[index]?, first = index →
      (HasEdges other (grow added path inner) edges ↔ HasEdges other inner edges)) :
    HasEdges (index :: other) (grow added (first :: path) group) edges ↔
      HasEdges (index :: other) group edges := by
  rw [hasEdges_cons_iff, hasEdges_cons_iff]
  show (∃ inner ∈ (group.groups.modify first _)[index]?, _) ↔ _
  rw [List.getElem?_modify]
  rcases hi : group.groups[index]? with _ | inner
  · simp
  · by_cases he : first = index
    · simpa [he] using h inner hi he
    · simp [he]

theorem hasEdges_grow_edges : ∀ {path other : List Nat} {group : Group}, other ≠ path →
    (HasEdges other (grow ⟨more, []⟩ path group) edges ↔ HasEdges other group edges)
  | [], [], _, hne => absurd rfl hne
  | [], index :: other, group, _ => by
    rw [hasEdges_cons_iff, hasEdges_cons_iff, grow, groups_append, List.append_nil]
  | first :: path, [], group, _ => by rw [hasEdges_nil_iff, hasEdges_nil_iff, grow]
  | first :: path, index :: other, group, hne =>
    hasEdges_grow_cons_iff fun inner _ he => hasEdges_grow_edges fun h => hne (by rw [he, h])

theorem hasEdges_grow_group : ∀ {path other : List Nat} {group branch : Group},
    Leads path group branch → other ≠ path ++ [branch.groups.length] →
      (HasEdges other (grow ⟨[], [empty]⟩ path group) edges ↔ HasEdges other group edges)
  | [], [], group, _, _, _ => by
    rw [hasEdges_nil_iff, hasEdges_nil_iff, grow, edges_append, List.append_nil]
  | [], index :: other, group, branch, hl, hne => by
    cases hl
    rw [hasEdges_cons_iff, hasEdges_cons_iff, grow, groups_append]
    rcases Nat.lt_trichotomy index group.groups.length with hlt | rfl | hlt
    · rw [List.getElem?_append_left hlt]
    · -- the new group has no branch but itself
      rcases other with _ | ⟨next, other⟩
      · exact absurd rfl hne
      · simp [hasEdges_cons_iff, empty]
    · rw [List.getElem?_eq_none (by simpa using Nat.succ_le_of_lt hlt),
        List.getElem?_eq_none (Nat.le_of_lt hlt)]
  | first :: path, [], group, _, _, _ => by rw [hasEdges_nil_iff, hasEdges_nil_iff, grow]
  | first :: path, index :: other, group, branch, ⟨found, hi, hl⟩, hne => by
    refine hasEdges_grow_cons_iff fun inner hinner he => ?_
    subst he
    obtain rfl := Option.some_inj.mp (hi.symm.trans hinner)
    exact hasEdges_grow_group hl fun h => hne (by rw [h]; rfl)

theorem not_leads_new_group : ∀ {path : List Nat} {group branch found : Group},
    Leads path group branch → ¬ Leads (path ++ [branch.groups.length]) group found
  | [], group, branch, found, h => by
    subst h
    rintro ⟨inner, hi, -⟩
    rw [List.getElem?_eq_none (Nat.le_refl _)] at hi
    cases hi
  | index :: path, group, branch, found, ⟨inner, hi, h⟩ => by
    rintro ⟨inner', hi', h'⟩
    obtain rfl := Option.some_inj.mp (hi.symm.trans hi')
    exact not_leads_new_group h h'

end Group

/-! ### What the operations change -/

variable {plan plan' : Plan} {path path' : List Nat} {edges : List Edge}

/-- The branch of a path has these edges of its own. -/
def HasEdges (plan : Plan) (path : List Nat) (edges : List Edge) : Prop :=
  Group.HasEdges path plan.trunk edges

theorem hasBranch_iff_exists_hasEdges : plan.HasBranch path ↔ ∃ edges, plan.HasEdges path edges :=
  ⟨fun ⟨branch, h⟩ => ⟨branch.edges, branch, h, rfl⟩, fun ⟨_, branch, h, _⟩ => ⟨branch, h⟩⟩

/-- One branch of a plan gains an edge behind its own, and nothing else is changed. -/
structure GainsEdge (path : List Nat) (edge : Edge) (old new : Plan) : Prop where
  here : ∃ before, old.HasEdges path before ∧ new.HasEdges path (before ++ [edge])
  elsewhere : ∀ other ≠ path, ∀ edges, new.HasEdges other edges ↔ old.HasEdges other edges
  rest : new = { old with edges := new.edges, groups := new.groups }

/-- One branch of a plan gains an empty group, to which a longer path leads, and nothing else is
changed. -/
structure GainsGroup (path path' : List Nat) (old new : Plan) : Prop where
  outer : old.HasBranch path
  inside : ∃ index, path' = path ++ [index]
  unused : ¬ old.HasBranch path'
  here : new.HasEdges path' []
  elsewhere : ∀ other ≠ path', ∀ edges, new.HasEdges other edges ↔ old.HasEdges other edges
  rest : new = { old with edges := new.edges, groups := new.groups }

theorem eq_of_fields_eq {old new : Plan} (hi : new.inputs = old.inputs)
    (hp : new.parameters = old.parameters) (ho : new.outputs = old.outputs)
    (hf : new.facts = old.facts) : new = { old with edges := new.edges, groups := new.groups } := by
  rw [← hi, ← hp, ← ho, ← hf]

/-- **An edge changes one branch.** -/
theorem gainsEdge_of_addEdge {predecessor successor role : Nat}
    (h : plan.addEdge predecessor successor role path = .ok plan') :
    plan.GainsEdge path ⟨plan.edgeCount + 1, predecessor, successor, role⟩ plan' := by
  obtain ⟨ht, hi, hp, hf⟩ := addEdge_eq_ok h
  have hb : plan.HasBranch path := by
    rcases Group.leads_or_strays path plan.trunk with hb | ⟨rest, hs⟩
    · exact hb
    · cases (addEdge_of_strays hs predecessor successor role).symm.trans h
  obtain ⟨before, hbefore⟩ := hasBranch_iff_exists_hasEdges.mp hb
  refine ⟨⟨before, hbefore, ?_⟩, fun other hne edges => ?_,
    eq_of_fields_eq hi hp (outputs_of_addEdge h) hf⟩
  · unfold HasEdges
    rw [ht]
    exact Group.hasEdges_grow_self hbefore
  · unfold HasEdges
    rw [ht]
    exact Group.hasEdges_grow_edges hne

/-- **A group changes one branch.** -/
theorem gainsGroup_of_addGroup (h : plan.addGroup path = .ok (plan', path')) :
    plan.GainsGroup path path' plan' := by
  obtain ⟨ht, hi, hp, hf⟩ := addGroup_eq_ok h
  obtain ⟨branch, hl⟩ : plan.HasBranch path := by
    rcases Group.leads_or_strays path plan.trunk with hb | ⟨rest, hs⟩
    · exact hb
    · cases (addGroup_of_strays hs).symm.trans h
  have hpath : path' = path ++ [branch.groups.length] := by
    obtain ⟨opened, hok⟩ := exists_addGroup_of_leads hl
    cases h.symm.trans hok
    rfl
  have htrunk := ht Group.empty
  rw [Group.grow_empty] at htrunk
  subst hpath
  refine ⟨⟨branch, hl⟩, ⟨_, rfl⟩, fun ⟨found, hn⟩ => Group.not_leads_new_group hl hn, ?_,
    fun other hne edges => ?_, eq_of_fields_eq hi hp (outputs_of_addGroup h).2 hf⟩
  · refine ⟨Group.empty, ?_, rfl⟩
    rw [htrunk]
    exact Group.leads_new_group hl
  · unfold HasEdges
    rw [htrunk]
    exact Group.hasEdges_grow_group hl hne

/-! ### Numbered plans -/

/-- The edges of all branches are numbered without gaps, upwards in every branch, and the slots are
numbered in their order. -/
structure Numbered (plan : Plan) : Prop where
  indices : (plan.edgesWithin.map Edge.index).Perm (List.range' 1 plan.edgeCount)
  increasing : ∀ path edges, plan.HasEdges path edges → (edges.map Edge.index).Pairwise (· < ·)
  slots : plan.facts.map Fact.slot = List.range' 1 plan.facts.length

theorem Numbered.of_trunk_eq (h : plan.Numbered) (ht : plan'.trunk = plan.trunk)
    (hs : plan'.facts.map Fact.slot = List.range' 1 plan'.facts.length) : plan'.Numbered := by
  refine ⟨?_, fun path edges he => h.increasing path edges ?_, hs⟩
  · rw [edgeCount_eq_trunk, edgesWithin, ht]
    exact h.indices
  · unfold HasEdges at he ⊢
    rwa [← ht]

theorem Numbered.index_le (h : plan.Numbered) {edge : Edge} (hm : edge ∈ plan.edgesWithin) :
    edge.index ≤ plan.edgeCount := by
  have hindex := h.indices.mem_iff.mp (List.mem_map_of_mem hm)
  rw [List.mem_range'_1] at hindex
  omega

theorem Numbered.addFact (h : plan.Numbered) (type : String) :
    (plan.addFact type).1.Numbered := by
  refine h.of_trunk_eq rfl ?_
  show (plan.facts ++ [_]).map Fact.slot = List.range' 1 (plan.facts ++ [_]).length
  rw [List.map_append, h.slots, List.length_append, List.length_singleton, List.range'_concat,
    Nat.one_mul, Nat.add_comm 1]
  rfl

theorem Numbered.addEdge (h : plan.Numbered) {predecessor successor role : Nat}
    (ha : plan.addEdge predecessor successor role path = .ok plan') : plan'.Numbered := by
  have hgains := gainsEdge_of_addEdge ha
  have hwithin := edgesWithin_of_addEdge ha
  have hcount : plan'.edgeCount = plan.edgeCount + 1 := by
    rw [← length_edgesWithin, hwithin.length_eq, List.length_append, length_edgesWithin]
    rfl
  refine ⟨?_, fun other edges he => ?_, ?_⟩
  · rw [hcount, List.range'_concat, Nat.one_mul, Nat.add_comm 1]
    refine (hwithin.map _).trans ?_
    rw [List.map_append]
    exact h.indices.append_right _
  · by_cases hne : other = path
    · -- the new edge stands behind those that are numbered already
      subst hne
      obtain ⟨before, hbefore, hafter⟩ := hgains.here
      obtain rfl := Group.HasEdges.unique he hafter
      rw [List.map_append, List.pairwise_append]
      refine ⟨h.increasing other before hbefore, List.pairwise_singleton _ _, ?_⟩
      intro a ha b hb
      obtain ⟨edge, hm, rfl⟩ := List.mem_map.mp ha
      have hle := h.index_le (Group.mem_edgesWithin_of_hasEdges hbefore edge hm)
      rw [List.mem_singleton.mp hb]
      exact Nat.lt_succ_of_le hle
    · exact h.increasing other edges ((hgains.elsewhere other hne edges).mp he)
  · rw [hgains.rest]
    exact h.slots

theorem Numbered.addGroup (h : plan.Numbered) (ha : plan.addGroup path = .ok (plan', path')) :
    plan'.Numbered := by
  have hgains := gainsGroup_of_addGroup ha
  have hwithin := edgesWithin_of_addGroup ha
  have hcount : plan'.edgeCount = plan.edgeCount := by
    rw [← length_edgesWithin, hwithin.length_eq, length_edgesWithin]
  refine ⟨?_, fun other edges he => ?_, ?_⟩
  · rw [hcount]
    exact (hwithin.map _).trans h.indices
  · by_cases hne : other = path'
    · subst hne
      rw [Group.HasEdges.unique he hgains.here]
      exact List.Pairwise.nil
    · exact h.increasing other edges ((hgains.elsewhere other hne edges).mp he)
  · rw [hgains.rest]
    exact h.slots

/-! ### Histories -/

/-- A step that makes a plan of another one. -/
inductive Operation where
  | addParameter (parameter : Parameter)
  | addInputParameters (label : String)
  | addFact (type : String)
  | addEdge (predecessor successor role : Nat) (path : List Nat)
  | addOutput (label type : String) (slot : Nat)
  | addGroup (path : List Nat)
  deriving DecidableEq, Repr

/-- The plan that an operation makes, unless it fails. -/
def Operation.apply (plan : Plan) : Operation → Option Plan
  | .addParameter parameter => some (plan.addParameter parameter).1
  | .addInputParameters label => plan.addInputParameters label
  | .addFact type => some (plan.addFact type).1
  | .addEdge predecessor successor role path =>
    (plan.addEdge predecessor successor role path).toOption
  | .addOutput label type slot => some (plan.addOutput label type slot)
  | .addGroup path => (plan.addGroup path).toOption.map Prod.fst

/-- All plans of a history. Every step applies an operation to one of the plans that are there. -/
def history (plans : List Plan) : List (Nat × Operation) → List Plan
  | [] => plans
  | (on, operation) :: rest =>
    history (plans ++ (plans[on]?.bind operation.apply).toList) rest

theorem apply_addEdge_eq_some_iff {predecessor successor role : Nat} :
    (Operation.addEdge predecessor successor role path).apply plan = some plan' ↔
      plan.addEdge predecessor successor role path = .ok plan' := by
  rw [Operation.apply]
  rcases plan.addEdge predecessor successor role path with e | new <;> simp [Except.toOption]

theorem apply_addGroup_eq_some_iff : (Operation.addGroup path).apply plan = some plan' ↔
    ∃ path', plan.addGroup path = .ok (plan', path') := by
  rw [Operation.apply]
  rcases plan.addGroup path with e | ⟨new, path'⟩ <;> simp [Except.toOption]

/-- **An operation keeps a plan numbered.** -/
theorem Numbered.apply (h : plan.Numbered) :
    ∀ {operation : Operation}, operation.apply plan = some plan' → plan'.Numbered
  | .addParameter _, ha => by
    cases ha
    exact h.of_trunk_eq rfl h.slots
  | .addInputParameters _, ha => by
    obtain ⟨_, _, _, -, -, -, rfl⟩ := exists_of_addInputParameters ha
    exact h.of_trunk_eq rfl h.slots
  | .addFact type, ha => by
    cases ha
    exact h.addFact type
  | .addEdge .., ha => h.addEdge (apply_addEdge_eq_some_iff.mp ha)
  | .addOutput .., ha => by
    cases ha
    exact h.of_trunk_eq rfl h.slots
  | .addGroup _, ha => by
    obtain ⟨path', ha⟩ := apply_addGroup_eq_some_iff.mp ha
    exact h.addGroup ha

theorem numbered_start {inputs : List Input} {facts : List Fact}
    (hf : facts.map Fact.slot = List.range' 1 facts.length) : (start inputs facts).Numbered := by
  refine ⟨List.Perm.refl _, fun path edges he => ?_, hf⟩
  -- there is no branch but the unconditional one
  rcases path with _ | ⟨index, path⟩
  · obtain rfl := Group.hasEdges_nil_iff.mp he
    exact List.Pairwise.nil
  · obtain ⟨inner, hi, -⟩ := Group.hasEdges_cons_iff.mp he
    cases hi

theorem forall_numbered_history : ∀ {steps : List (Nat × Operation)} {plans : List Plan},
    (∀ plan ∈ plans, plan.Numbered) → ∀ plan ∈ history plans steps, plan.Numbered
  | [], _, h => h
  | (on, operation) :: rest, plans, h => by
    show ∀ plan ∈ history (plans ++ _) rest, plan.Numbered
    refine forall_numbered_history fun plan hm => ?_
    rcases List.mem_append.mp hm with hm | hm
    · exact h plan hm
    · obtain ⟨base, hbase, ha⟩ := Option.bind_eq_some_iff.mp (Option.mem_toList.mp hm)
      exact (h base (List.mem_of_getElem? hbase)).apply ha

theorem history_append {more : List (Nat × Operation)} : ∀ (steps : List (Nat × Operation))
    (plans : List Plan), history plans (steps ++ more) = history (history plans steps) more
  | [], _ => rfl
  | _ :: rest, _ => history_append rest _

/-- **Every plan of a history is numbered.** The edges of all its branches have the numbers up to
their count, each of them once and upwards in every branch, and its slots are numbered in their
order. A parameter is found where its position says, an edge or a group changes the branch of its
path only, and a further step leaves all plans as they are: it appends what its operation makes of
the plan, and nothing if the operation fails. -/
theorem numbered_of_mem_history {inputs : List Input} {facts : List Fact}
    {steps : List (Nat × Operation)} (hf : facts.map Fact.slot = List.range' 1 facts.length)
    (hm : plan ∈ history [start inputs facts] steps) :
    plan.Numbered ∧
      (∀ parameter, parameterAt (plan.addParameter parameter).1.parameters
        (plan.addParameter parameter).2 = some parameter) ∧
      (∀ predecessor successor role path plan',
        plan.addEdge predecessor successor role path = .ok plan' →
          plan.GainsEdge path ⟨plan.edgeCount + 1, predecessor, successor, role⟩ plan') ∧
      (∀ path plan' path', plan.addGroup path = .ok (plan', path') →
        plan.GainsGroup path path' plan') ∧
      ∀ on operation, (history [start inputs facts] steps)[on]? = some plan →
        history [start inputs facts] (steps ++ [(on, operation)]) =
          history [start inputs facts] steps ++ (operation.apply plan).toList := by
  refine ⟨forall_numbered_history (fun first hfirst => ?_) plan hm, parameterAt_addParameter plan,
    fun _ _ _ _ _ => gainsEdge_of_addEdge, fun _ _ _ => gainsGroup_of_addGroup,
    fun on operation hon => ?_⟩
  · rw [List.mem_singleton.mp hfirst]
    exact numbered_start hf
  · rw [history_append, history, hon]
    rfl

/-- Two nested groups with an edge each, an edge next to the first of them, and a path that leads
nowhere. -/
def nestedSteps : List (Nat × Operation) :=
  [(0, .addFact "Post"), (1, .addEdge 1 2 1 []), (2, .addGroup []), (3, .addEdge 2 1 1 [0]),
    (4, .addGroup [0]), (5, .addEdge 1 2 1 [0, 0]), (2, .addEdge 2 1 1 []), (6, .addEdge 1 1 1 [3]),
    (6, .addEdge 2 2 1 [0])]

/-- The last plan of these steps. -/
def nestedPlan : Plan :=
  { start [⟨"root", 1, some 1, "abc", none, none⟩] [⟨1, "Root"⟩, ⟨2, "Post"⟩] with
    edges := [⟨1, 1, 2, 1⟩]
    groups := [⟨[⟨2, 2, 1, 1⟩, ⟨4, 2, 2, 1⟩], [⟨[⟨3, 1, 2, 1⟩], []⟩]⟩] }

theorem numbered_nestedPlan : nestedPlan.Numbered := by
  have hm : nestedPlan ∈
      history [start [⟨"root", 1, some 1, "abc", none, none⟩] [⟨1, "Root"⟩]] nestedSteps := by
    decide +kernel
  exact (numbered_of_mem_history (by decide) hm).1

end FactGraph.Plan
