import FactGraph.Proofs.Plan.Inputs
import FactGraph.Proofs.Plan.Start
import FactGraph.Proofs.Plan.Traversal
import Mathlib.Data.List.Perm.Basic

/-! # Parameters of plans

A compilation hands out parameters one after the other: two to an input that is used for the first
time, and one to every edge. Each of them is used in one place, and none is left over, whatever
branches are dropped on the way.

* `Plan.edgesWithin_of_addEdge`, `Plan.edgesWithin_of_addGroup`: what the operations add to the
  edges of all branches.
* `Specification.allotted_of_mem_tracedPlans`: the parameters of every plan are used once, and hold
  the types and hashes of the start facts and the numbers of the roles that the edges traverse. -/

namespace FactGraph

theorem flatMap_set_perm {α β : Type} {f : α → List β} {a a' : α} {more : List β}
    (hf : (f a').Perm (f a ++ more)) : ∀ {l : List α} {i : Nat}, l[i]? = some a →
      ((l.set i a').flatMap f).Perm (l.flatMap f ++ more)
  | [], _, h => by cases h
  | first :: rest, 0, h => by
    cases h
    rw [List.set_cons_zero, List.flatMap_cons, List.flatMap_cons, List.append_assoc]
    refine (hf.append_right _).trans ?_
    rw [List.append_assoc]
    exact List.perm_append_comm.append_left _
  | first :: rest, i + 1, h => by
    rw [List.set_cons_succ, List.flatMap_cons, List.flatMap_cons, List.append_assoc]
    exact (flatMap_set_perm hf (by simpa using h)).append_left _

namespace Plan

/-! ### Edges in all branches -/

namespace Group

mutual

/-- The edges of a group and of the groups inside of it. -/
def edgesWithin : Group → List Edge
  | ⟨edges, groups⟩ => edges ++ edgesWithinAll groups

/-- The edges of some groups and of the groups inside of them. -/
def edgesWithinAll : List Group → List Edge
  | [] => []
  | group :: rest => group.edgesWithin ++ edgesWithinAll rest

end

theorem edgesWithin_eq (group : Group) :
    group.edgesWithin = group.edges ++ edgesWithinAll group.groups := by
  obtain ⟨edges, groups⟩ := group
  rfl

theorem edgesWithinAll_eq : ∀ groups : List Group,
    edgesWithinAll groups = groups.flatMap edgesWithin
  | [] => rfl
  | group :: rest => by rw [edgesWithinAll, edgesWithinAll_eq rest, List.flatMap_cons]

mutual

theorem length_edgesWithin : ∀ group : Group, group.edgesWithin.length = group.edgeCount
  | ⟨edges, groups⟩ => by
    rw [edgesWithin, List.length_append, length_edgesWithinAll groups, edgeCount]

theorem length_edgesWithinAll : ∀ groups : List Group,
    (edgesWithinAll groups).length = edgeCountAll groups
  | [] => rfl
  | group :: rest => by
    rw [edgesWithinAll, List.length_append, length_edgesWithin group, length_edgesWithinAll rest,
      edgeCountAll]

end

theorem edgesWithinAll_of_modify {change : Group → Group} {more : List Edge}
    (hc : ∀ group, (change group).edgesWithin.Perm (group.edgesWithin ++ more)) :
    ∀ {path : List Nat} {groups groups' : List Group}, modify change groups path = .ok groups' →
      (edgesWithinAll groups').Perm (edgesWithinAll groups ++ more)
  | [], _, _, h => by cases h
  | index :: path, groups, groups', h => by
    rw [modify] at h
    rcases hi : groups[index]? with _ | group <;> simp only [hi] at h
    · cases h
    rw [edgesWithinAll_eq, edgesWithinAll_eq]
    split_ifs at h with hp
    · cases h
      exact flatMap_set_perm (hc group) hi
    · obtain ⟨inner, hm, h⟩ := Except.bind_eq_ok_iff.mp h
      cases h
      refine flatMap_set_perm ?_ hi
      rw [edgesWithin, edgesWithin_eq group, List.append_assoc]
      exact (edgesWithinAll_of_modify hc hm).append_left _

end Group

variable {plan plan' : Plan} {path path' : List Nat}

/-- The edges of a plan in all branches. -/
def edgesWithin (plan : Plan) : List Edge := plan.trunk.edgesWithin

theorem length_edgesWithin (plan : Plan) : plan.edgesWithin.length = plan.edgeCount :=
  Group.length_edgesWithin plan.trunk

/-- **An edge is added to one branch.** -/
theorem edgesWithin_of_addEdge {predecessor successor role : Nat}
    (h : plan.addEdge predecessor successor role path = .ok plan') :
    plan'.edgesWithin.Perm
      (plan.edgesWithin ++ [⟨plan.edgeCount + 1, predecessor, successor, role⟩]) := by
  let edge : Edge := ⟨plan.edgeCount + 1, predecessor, successor, role⟩
  show ((⟨plan'.edges, plan'.groups⟩ : Group).edgesWithin).Perm
    ((⟨plan.edges, plan.groups⟩ : Group).edgesWithin ++ [edge])
  have hchange : ∀ group : Group, (⟨group.edges ++ [edge], group.groups⟩ : Group).edgesWithin.Perm
      (group.edgesWithin ++ [edge]) := by
    intro group
    rw [Group.edgesWithin, Group.edgesWithin_eq group, List.append_assoc, List.append_assoc]
    exact List.perm_append_comm.append_left _
  unfold addEdge at h
  split_ifs at h with hp
  · cases h
    exact hchange ⟨plan.edges, plan.groups⟩
  · obtain ⟨groups, hm, h⟩ := Except.bind_eq_ok_iff.mp h
    cases h
    rw [Group.edgesWithin, Group.edgesWithin, List.append_assoc]
    exact (Group.edgesWithinAll_of_modify hchange hm).append_left _

/-- **A group is added without edges.** -/
theorem edgesWithin_of_addGroup (h : plan.addGroup path = .ok (plan', path')) :
    plan'.edgesWithin.Perm plan.edgesWithin := by
  show ((⟨plan'.edges, plan'.groups⟩ : Group).edgesWithin).Perm
    ((⟨plan.edges, plan.groups⟩ : Group).edgesWithin)
  have hempty : ∀ groups : List Group,
      Group.edgesWithinAll (groups ++ [Group.empty]) = Group.edgesWithinAll groups := by
    intro groups
    rw [Group.edgesWithinAll_eq, Group.edgesWithinAll_eq, List.flatMap_append]
    exact List.append_nil _
  have hchange : ∀ group : Group,
      (⟨group.edges, group.groups ++ [Group.empty]⟩ : Group).edgesWithin.Perm
        (group.edgesWithin ++ []) := by
    intro group
    rw [Group.edgesWithin, hempty, Group.edgesWithin_eq group, List.append_nil]
  unfold addGroup at h
  split_ifs at h with hp
  · cases h
    rw [← List.append_nil (Group.edgesWithin ⟨plan.edges, plan.groups⟩)]
    exact hchange ⟨plan.edges, plan.groups⟩
  · obtain ⟨outer, -, h⟩ := Except.bind_eq_ok_iff.mp h
    obtain ⟨groups, hm, h⟩ := Except.bind_eq_ok_iff.mp h
    cases h
    have hgroups := Group.edgesWithinAll_of_modify hchange hm
    rw [List.append_nil] at hgroups
    rw [Group.edgesWithin, Group.edgesWithin]
    exact hgroups.append_left _

/-! ### Allotted parameters -/

/-- The positions of the parameters that pin an input, if it has some. -/
def Input.positions (input : Input) : List Nat :=
  match input.typeParameter, input.hashParameter with
  | some typeParameter, some hashParameter => [typeParameter, hashParameter]
  | _, _ => []

/-- The positions of the parameters that a plan refers to. -/
def positions (plan : Plan) : List Nat :=
  plan.inputs.flatMap Input.positions ++ plan.edgesWithin.map Edge.roleParameter

/-- The role that the edge of a number traverses. -/
def roleAt (roles : List RoleDefinition) : Nat → Option RoleDefinition
  | 0 => none
  | index + 1 => roles[index]?

/-- The parameter of an edge holds the number of the role that the edge traverses. -/
def Edge.HoldsRole (schema : Schema) (parameters : List Parameter) (roles : List RoleDefinition)
    (edge : Edge) : Prop :=
  ∃ role id, roleAt roles edge.index = some role ∧
    schema.roleOf role.definingType role.name = some id ∧
    parameterAt parameters edge.roleParameter = some (.integer id)

/-- **The parameters of a plan are allotted.** Every parameter is referred to in one place, those of
the inputs hold what the inputs are known by, and those of the edges, one for each role that is
traversed, the numbers of their roles. -/
structure Allotted (schema : Schema) (inputs : List Input) (plan : Plan)
    (roles : List RoleDefinition) : Prop where
  derives : plan.DerivesFrom inputs
  positions : plan.positions.Perm (List.range' 1 plan.parameters.length)
  indices : (plan.edgesWithin.map Edge.index).Perm (List.range' 1 roles.length)
  holds : ∀ edge ∈ plan.edgesWithin, edge.HoldsRole schema plan.parameters roles

variable {schema : Schema} {inputs : List Input} {roles : List RoleDefinition}

theorem DerivesFrom.congr (h : plan.DerivesFrom inputs) (hi : plan'.inputs = plan.inputs)
    (hp : plan.parameters <+: plan'.parameters) : plan'.DerivesFrom inputs := by
  unfold DerivesFrom at h ⊢
  rw [hi]
  exact h.imp fun _ _ => Input.DerivesFrom.mono hp

theorem Edge.HoldsRole.mono {parameters parameters' : List Parameter}
    {roles roles' : List RoleDefinition} {edge : Edge} (h : edge.HoldsRole schema parameters roles)
    (hp : parameters <+: parameters') (hr : roles <+: roles') :
    edge.HoldsRole schema parameters' roles' := by
  obtain ⟨role, id, hrole, hid, hparameter⟩ := h
  refine ⟨role, id, ?_, hid, parameterAt_of_prefix hp hparameter⟩
  obtain ⟨more, rfl⟩ := hr
  rcases hindex : edge.index with _ | index <;> rw [hindex] at hrole
  · cases hrole
  · rw [roleAt] at hrole ⊢
    rw [List.getElem?_append_left (List.getElem?_eq_some_iff.mp hrole).1, hrole]

namespace Allotted

theorem count (h : plan.Allotted schema inputs roles) : roles.length = plan.edgeCount := by
  have hlength := h.indices.length_eq
  rw [List.length_map, length_edgesWithin, List.length_range'] at hlength
  exact hlength.symm

theorem congr (h : plan.Allotted schema inputs roles) (hi : plan'.inputs = plan.inputs)
    (hp : plan'.parameters = plan.parameters) (he : plan'.edgesWithin.Perm plan.edgesWithin) :
    plan'.Allotted schema inputs roles where
  derives := h.derives.congr hi (hp ▸ List.prefix_refl _)
  positions := by
    unfold Plan.positions
    rw [hi, hp]
    exact ((he.map _).append_left _).trans h.positions
  indices := (he.map _).trans h.indices
  holds edge hm := by
    rw [hp]
    exact h.holds edge (he.mem_iff.mp hm)

theorem addEdge (h : plan.Allotted schema inputs roles) {middle new : Plan} {id : Int}
    {role : RoleDefinition} {predecessor successor : Nat}
    (hr : schema.roleOf role.definingType role.name = some id)
    (hi : middle.inputs = plan.inputs) (hp : middle.parameters = plan.parameters ++ [.integer id])
    (ht : middle.trunk = plan.trunk)
    (ha : middle.addEdge predecessor successor (plan.parameters.length + 1) path = .ok new) :
    new.Allotted schema inputs (roles ++ [role]) := by
  obtain ⟨-, hinputs, hparameters, -⟩ := addEdge_eq_ok ha
  have hwithin : middle.edgesWithin = plan.edgesWithin := congrArg Group.edgesWithin ht
  have hcount : middle.edgeCount = plan.edgeCount := by
    rw [← length_edgesWithin, ← length_edgesWithin, hwithin]
  have hedges := edgesWithin_of_addEdge ha
  rw [hwithin, hcount] at hedges
  rw [hi] at hinputs
  rw [hp] at hparameters
  have hprefix : plan.parameters <+: new.parameters := hparameters ▸ List.prefix_append _ _
  refine ⟨h.derives.congr hinputs hprefix, ?_, ?_, fun edge hm => ?_⟩
  · unfold Plan.positions
    rw [hinputs, hparameters, List.length_append, List.length_singleton, List.range'_concat,
      Nat.add_comm 1, Nat.one_mul]
    refine ((hedges.map _).append_left _).trans ?_
    rw [List.map_append, ← List.append_assoc]
    exact h.positions.append_right _
  · rw [List.length_append, List.length_singleton, List.range'_concat, Nat.add_comm 1, Nat.one_mul,
      h.count]
    refine (hedges.map _).trans ?_
    rw [List.map_append, ← h.count]
    exact h.indices.append_right _
  · rcases List.mem_append.mp (hedges.mem_iff.mp hm) with hm | hm
    · exact (h.holds edge hm).mono hprefix (List.prefix_append _ _)
    · rw [List.mem_singleton.mp hm]
      refine ⟨role, id, ?_, hr, ?_⟩
      · rw [roleAt, ← h.count, List.getElem?_concat_length]
      · rw [parameterAt, hparameters, List.getElem?_concat_length]

theorem useInput (h : plan.Allotted schema inputs roles) {label : String}
    (hu : plan.useInput label = some plan') : plan'.Allotted schema inputs roles := by
  unfold Plan.useInput at hu
  rcases hi : plan.input? label with _ | input <;> simp only [hi] at hu
  · cases hu
    exact h
  split_ifs at hu with hnone
  · have hderives := derivesFrom_of_addInputParameters h.derives hu
    obtain ⟨position, used, id, hpos, hget, hid, rfl⟩ := exists_of_addInputParameters hu
    -- the input that is found by its label stands at the position that gets the parameters
    obtain rfl : input = used := by
      rw [Plan.input?, List.find?_eq_bind_findIdx?_getElem?, hpos, Option.bind_some, hget] at hi
      exact (Option.some_inj.mp hi).symm
    have hunused : input.positions = [] := by
      rw [Input.positions, Option.isNone_iff_eq_none.mp hnone]
    refine ⟨hderives, ?_, h.indices, fun edge hm =>
      (h.holds edge hm).mono (List.prefix_append _ _) (List.prefix_refl _)⟩
    let pinned : Input := { input with
      typeParameter := some (plan.parameters.length + 1)
      hashParameter := some (plan.parameters.length + 2) }
    have hpinned : (Input.positions pinned).Perm
        (input.positions ++ List.range' (1 + plan.parameters.length) 2) := by
      rw [hunused, Nat.add_comm 1]
      exact List.Perm.refl _
    show ((plan.inputs.set position pinned).flatMap Input.positions ++
      plan.edgesWithin.map Edge.roleParameter).Perm
        (List.range' 1
          (plan.parameters ++ [Parameter.integer id, Parameter.text input.hash]).length)
    rw [List.length_append, List.length_cons, List.length_singleton, ← List.range'_append_1]
    have hinputs := flatMap_set_perm hpinned hget
    refine ((hinputs.append_right _).trans ?_).trans (h.positions.append_right _)
    rw [Plan.positions, List.append_assoc, List.append_assoc]
    exact List.perm_append_comm.append_left _
  · cases hu
    exact h

end Allotted

end Plan

/-! ### Joins -/

variable {schema : Schema} {inputs : List Plan.Input} {path : List Nat} {plan new : Plan}
  {slot last : Nat} {roles : List RoleDefinition}

theorem nextSlot_eq {α : Type} (plan : Plan) (type : String) (unknown : Option Plan.Fact)
    (rest : List α) : (nextSlot plan type unknown rest).1.inputs = plan.inputs ∧
      (nextSlot plan type unknown rest).1.parameters = plan.parameters ∧
      (nextSlot plan type unknown rest).1.trunk = plan.trunk := by
  unfold nextSlot
  split
  · exact ⟨rfl, rfl, rfl⟩
  · exact ⟨rfl, rfl, rfl⟩

theorem allotted_of_ascend {unknown : Option Plan.Fact} : ∀ {up : List Role} {plan : Plan}
    {slot : Nat} {type : String} {roles : List RoleDefinition},
    plan.Allotted schema inputs roles →
    ascend schema path unknown plan slot type up = .ok (some (new, last)) →
      new.Allotted schema inputs (roles ++ rolesFrom type up)
  | [], plan, slot, type, roles, h, ha => by
    cases ha
    rwa [rolesFrom, List.append_nil]
  | role :: rest, plan, slot, type, roles, h, ha => by
    rw [ascend] at ha
    rcases hr : schema.roleOf type role.name with _ | id <;> simp only [hr] at ha
    · cases ha
    obtain ⟨edged, he, hrest⟩ := Except.bind_eq_ok_iff.mp ha
    obtain ⟨hi, hp, ht⟩ :=
      nextSlot_eq (plan.addParameter (.integer id)).1 role.target unknown rest
    have hedged : edged.Allotted schema inputs (roles ++ [⟨type, role.name, role.target⟩]) :=
      h.addEdge hr hi hp ht he
    have hnew := allotted_of_ascend hedged hrest
    rwa [List.append_assoc] at hnew

/-- The edges of roles that lead downwards traverse the roles whose numbers they are. -/
theorem allotted_of_descend {unknown : Option Plan.Fact} : ∀ {ids : List (Int × String)}
    {down : List RoleDefinition} {plan : Plan} {slot : Nat} {roles : List RoleDefinition},
    List.Forall₂ (fun known role => schema.roleOf role.definingType role.name = some known.1)
      ids down →
    plan.Allotted schema inputs roles → descend path unknown plan slot ids = .ok (new, last) →
      new.Allotted schema inputs (roles ++ down)
  | [], _, plan, slot, roles, .nil, h, hd => by
    cases hd
    rwa [List.append_nil]
  | (id, type) :: rest, role :: others, plan, slot, roles, .cons hr hrest, h, hd => by
    rw [descend] at hd
    obtain ⟨edged, he, hd⟩ := Except.bind_eq_ok_iff.mp hd
    obtain ⟨hi, hp, ht⟩ := nextSlot_eq (plan.addParameter (.integer id)).1 type unknown rest
    have hedged : edged.Allotted schema inputs (roles ++ [role]) := h.addEdge hr hi hp ht he
    have hnew := allotted_of_descend hrest hedged hd
    rwa [List.append_assoc] at hnew

theorem forall₂_of_resolveRoles : ∀ {up : List Role} {type : String} {ids : List (Int × String)},
    resolveRoles schema type up = some ids →
    List.Forall₂ (fun known role => schema.roleOf role.definingType role.name = some known.1)
      ids (rolesFrom type up)
  | [], _, _, h => by
    cases h
    exact .nil
  | role :: rest, type, ids, h => by
    simp only [resolveRoles, Option.bind_eq_bind, Option.bind_eq_some_iff] at h
    obtain ⟨id, hr, others, ho, h⟩ := h
    cases h
    exact .cons hr (forall₂_of_resolveRoles ho)

/-- **A path condition allots parameters to the roles that it traverses.** -/
theorem PathCondition.allotted_of_join {stem : String} {unknown : Label}
    {condition : PathCondition} {joined : Joined} {branch : Branch}
    (hj : joined.plan.Allotted schema inputs roles)
    (h : condition.join schema stem path unknown joined = .ok branch) :
    ∀ next ∈ branch.last, next.plan.Allotted schema inputs
      (roles ++ condition.traversed joined.bindings unknown) := by
  unfold PathCondition.join at h
  rcases hu : joined.plan.useInput condition.labelRight with _ | used <;> simp only [hu] at h
  · cases h
    rintro _ ⟨⟩
  rcases hr : joined.bindings.lookup condition.labelRight with _ | right <;> simp only [hr] at h
  · cases h
  obtain ⟨up, ha, h⟩ := Except.bind_eq_ok_iff.mp h
  rcases up with _ | ⟨middle, slot⟩
  · cases h
    rintro _ ⟨⟩
  rcases hl : resolveRoles schema unknown.type condition.rolesLeft with _ | ids <;>
    simp only [hl] at h
  · cases h
    rintro _ ⟨⟩
  obtain ⟨⟨final, slot'⟩, hd, h⟩ := Except.bind_eq_ok_iff.mp h
  have hmiddle := allotted_of_ascend (hj.useInput hu) ha
  have hfinal := allotted_of_descend (List.rel_reverse (forall₂_of_resolveRoles hl)) hmiddle hd
  have htraversed : condition.traversed joined.bindings unknown =
      rolesFrom right.type condition.rolesRight ++
        (rolesFrom unknown.type condition.rolesLeft).reverse := by
    rw [PathCondition.traversed, hr]
  rw [htraversed, ← List.append_assoc]
  rcases hb : joined.bindings.lookup unknown.name with _ | bound <;> simp only [hb] at h <;> cases h
  · rintro _ ⟨⟩
    show Plan.Allotted schema inputs (if path.isEmpty then _ else _) _
    split_ifs
    · exact hfinal.congr rfl rfl (List.Perm.refl _)
    · exact hfinal
  · rintro _ ⟨⟩
    exact hfinal

theorem preserved_allotted :
    Preserved schema fun plan roles => plan.Allotted schema inputs roles where
  join hj h := PathCondition.allotted_of_join hj h
  addGroup h hg := by
    obtain ⟨-, hi, hp, -⟩ := Plan.addGroup_eq_ok hg
    exact h.congr hi hp (Plan.edgesWithin_of_addGroup hg)

/-! ### Specifications -/

namespace Specification

variable {spec : Specification} {start : List FactReference}

theorem allotted_initial : (spec.initial schema start).plan.Allotted schema
    (spec.inputs schema start) [] where
  derives := List.forall₂_same.mpr fun _ _ => Or.inl rfl
  positions := by
    have hinputs : (spec.inputs schema start).flatMap Plan.Input.positions = [] := by
      refine List.flatMap_eq_nil_iff.mpr fun input hi => ?_
      obtain ⟨i, label, ref, -, -, rfl⟩ := mem_inputs hi
      rfl
    show ((spec.inputs schema start).flatMap Plan.Input.positions ++ []).Perm []
    rw [hinputs]
    exact List.Perm.refl _
  indices := List.Perm.refl _
  holds _ hm := absurd hm List.not_mem_nil

/-- **The parameters of every plan are allotted**, of whatever specification. -/
theorem allotted_of_mem_tracedPlans {plans : List TracedPlan}
    (h : spec.tracedPlans schema start = .ok plans) : ∀ traced ∈ plans,
      traced.plan.Allotted schema (spec.inputs schema start) traced.roles :=
  every_tracedPlans preserved_allotted allotted_initial h

end Specification

end FactGraph
