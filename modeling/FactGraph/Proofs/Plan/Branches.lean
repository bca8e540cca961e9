import FactGraph.Plan.Compile
import FactGraph.Proofs.Plan.Growth

/-! # Branches of growing plans

An operation at a path succeeds if the path leads to a branch of the plan, and a plan that grows
loses none of its branches. `Plan.Extends` says so of two plans, together with the numbers of the
types of their inputs, which never change.

* `Plan.exists_addEdge`, `Plan.exists_addGroup`: an existing branch takes edges and groups.
* `Plan.useInput_extends`: an input that is used only gets its parameters. -/

namespace FactGraph.Plan

/-! ### Branches of groups -/

namespace Group

/-- A branch on the path at which something grows is the branch with that growth inside. -/
theorem leads_grow_append {added : Group} {rest : List Nat} : ∀ {path : List Nat}
    {group branch : Group}, Leads path group branch →
      Leads path (grow added (path ++ rest) group) (grow added rest branch)
  | [], _, _, h => congrArg (grow added rest) h
  | _ :: path, _, _, ⟨inner, hi, h⟩ =>
    ⟨grow added (path ++ rest) inner, (getElem?_groups_grow hi).trans (congrArg some (if_pos rfl)),
      leads_grow_append h⟩

theorem leads_grow_of_not_prefix {added : Group} : ∀ {path at' : List Nat} {group branch : Group},
    ¬ at' <+: path → Leads at' group branch → Leads at' (grow added path group) branch
  | path, [], _, _, hn, _ => absurd path.nil_prefix hn
  | [], index :: at', group, branch, _, ⟨inner, hi, h⟩ => ⟨inner, getElem?_groups_append hi, h⟩
  | first :: path, index :: at', group, branch, hn, ⟨inner, hi, h⟩ => by
    by_cases he : first = index
    · subst he
      have hinner : ¬ at' <+: path := fun hp => hn (List.cons_prefix_cons.mpr ⟨rfl, hp⟩)
      exact ⟨grow added path inner, (getElem?_groups_grow hi).trans (congrArg some (if_pos rfl)),
        leads_grow_of_not_prefix hinner h⟩
    · exact ⟨inner, (getElem?_groups_grow hi).trans (congrArg some (if_neg he)), h⟩

theorem exists_leads_grow {added group branch : Group} {path at' : List Nat}
    (h : Leads at' group branch) : ∃ branch', Leads at' (grow added path group) branch' := by
  by_cases hp : at' <+: path
  · obtain ⟨rest, rfl⟩ := hp
    exact ⟨_, leads_grow_append h⟩
  · exact ⟨branch, leads_grow_of_not_prefix hp h⟩

theorem leads_new_group {added : Group} : ∀ {path : List Nat} {group branch : Group},
    Leads path group branch →
      Leads (path ++ [branch.groups.length]) (grow ⟨[], [added]⟩ path group) added
  | [], group, branch, h => by
    subst h
    refine ⟨added, ?_, rfl⟩
    show (group.groups ++ [added])[group.groups.length]? = _
    rw [List.getElem?_concat_length]
  | _ :: path, _, _, ⟨inner, hi, h⟩ =>
    ⟨grow ⟨[], [added]⟩ path inner, (getElem?_groups_grow hi).trans (congrArg some (if_pos rfl)),
      leads_new_group h⟩

theorem at?_eq_ok : ∀ {path : List Nat} {edges : List Edge} {groups : List Group} {branch : Group},
    path ≠ [] → Leads path ⟨edges, groups⟩ branch → at? groups path = .ok branch
  | [], _, _, _, hne, _ => absurd rfl hne
  | index :: path, edges, groups, branch, _, ⟨⟨innerEdges, innerGroups⟩, hi, h⟩ => by
    have hget : groups[index]? = some ⟨innerEdges, innerGroups⟩ := hi
    rw [at?, hget]
    by_cases hp : path = []
    · subst hp
      cases h
      rfl
    · simp only [List.isEmpty_iff, hp, if_false]
      exact at?_eq_ok hp h

theorem exists_modify (change : Group → Group) : ∀ {path : List Nat} {edges : List Edge}
    {groups : List Group} {branch : Group}, path ≠ [] → Leads path ⟨edges, groups⟩ branch →
      ∃ groups', modify change groups path = .ok groups'
  | [], _, _, _, hne, _ => absurd rfl hne
  | index :: path, edges, groups, branch, _, ⟨⟨innerEdges, innerGroups⟩, hi, h⟩ => by
    have hget : groups[index]? = some ⟨innerEdges, innerGroups⟩ := hi
    rw [modify, hget]
    by_cases hp : path = []
    · subst hp
      exact ⟨_, rfl⟩
    · obtain ⟨groups', hm⟩ := exists_modify change hp h
      simp only [List.isEmpty_iff, hp, if_false, hm]
      exact ⟨_, rfl⟩

end Group

/-! ### Plans that extend another one -/

/-- A path leads to a branch of the plan. -/
def HasBranch (plan : Plan) (path : List Nat) : Prop := ∃ branch, Group.Leads path plan.trunk branch

/-- Every branch of a plan is one of another plan, whose inputs have the same types. -/
structure Extends (old new : Plan) : Prop where
  branches : ∀ path, old.HasBranch path → new.HasBranch path
  typeIds : new.inputs.map Input.typeId = old.inputs.map Input.typeId

variable {a b c plan plan' : Plan} {path path' : List Nat}

theorem hasBranch_nil (plan : Plan) : plan.HasBranch [] := ⟨_, rfl⟩

theorem Extends.refl (plan : Plan) : plan.Extends plan := ⟨fun _ h => h, rfl⟩

theorem Extends.trans (h : a.Extends b) (h' : b.Extends c) : a.Extends c :=
  ⟨fun path hb => h'.branches path (h.branches path hb), h'.typeIds.trans h.typeIds⟩

theorem Extends.of_eq (ht : plan'.trunk = plan.trunk) (hi : plan'.inputs = plan.inputs) :
    plan.Extends plan' :=
  ⟨fun path hb => by unfold HasBranch at hb ⊢; rwa [ht], by rw [hi]⟩

theorem Extends.of_grow {added : Group} (ht : plan'.trunk = Group.grow added path plan.trunk)
    (hi : plan'.inputs = plan.inputs) : plan.Extends plan' := by
  refine ⟨fun other hb => ?_, by rw [hi]⟩
  obtain ⟨branch, hl⟩ := hb
  unfold HasBranch
  rw [ht]
  exact Group.exists_leads_grow hl

/-! ### Operations at a branch -/

/-- **A branch takes an edge.** -/
theorem exists_addEdge (hb : plan.HasBranch path) (predecessor successor role : Nat) :
    ∃ plan', plan.addEdge predecessor successor role path = .ok plan' ∧ plan.Extends plan' := by
  have hok : ∃ plan', plan.addEdge predecessor successor role path = .ok plan' := by
    unfold addEdge
    by_cases hp : path = []
    · subst hp
      exact ⟨_, rfl⟩
    · obtain ⟨branch, hl⟩ := hb
      let edge : Edge := ⟨plan.edgeCount + 1, predecessor, successor, role⟩
      obtain ⟨groups, hm⟩ := Group.exists_modify
        (fun group => { group with edges := group.edges ++ [edge] }) hp hl
      simp only [List.isEmpty_iff, hp, if_false, edge, hm] at hm ⊢
      exact ⟨_, rfl⟩
  obtain ⟨plan', h⟩ := hok
  obtain ⟨ht, hi, -, -⟩ := addEdge_eq_ok h
  exact ⟨plan', h, .of_grow ht hi⟩

theorem exists_addGroup_of_leads {branch : Group} (hl : Group.Leads path plan.trunk branch) :
    ∃ plan', plan.addGroup path = .ok (plan', path ++ [branch.groups.length]) := by
  unfold addGroup
  by_cases hp : path = []
  · subst hp
    cases hl
    exact ⟨_, rfl⟩
  · obtain ⟨groups, hm⟩ := Group.exists_modify
      (fun group => { group with groups := group.groups ++ [Group.empty] }) hp hl
    simp only [List.isEmpty_iff, hp, if_false, Group.at?_eq_ok hp hl, hm]
    exact ⟨_, rfl⟩

/-- **A branch takes a group**, and the path of that group leads to it. -/
theorem exists_addGroup (hb : plan.HasBranch path) : ∃ plan' path',
    plan.addGroup path = .ok (plan', path') ∧ plan.Extends plan' ∧ plan'.HasBranch path' := by
  obtain ⟨branch, hl⟩ := hb
  obtain ⟨plan', h⟩ := exists_addGroup_of_leads hl
  obtain ⟨ht, hi, -, -⟩ := addGroup_eq_ok h
  have htrunk : plan'.trunk = Group.grow ⟨[], [Group.empty]⟩ path plan.trunk := by
    rw [← ht, Group.grow_empty]
  refine ⟨plan', _, h, .of_grow htrunk hi, Group.empty, ?_⟩
  rw [htrunk]
  exact Group.leads_new_group hl

/-! ### Using an input -/

theorem map_set_of_eq {α β : Type} {f : α → β} {l : List α} {i : Nat} {a a' : α}
    (h : l[i]? = some a) (hf : f a' = f a) : (l.set i a').map f = l.map f := by
  refine List.ext_getElem? fun j => ?_
  rw [List.getElem?_map, List.getElem?_map, List.getElem?_set']
  by_cases hj : i = j
  · subst hj
    simp [h, hf]
  · simp [hj]

theorem addInputParameters_eq_some {label : String}
    (h : plan.addInputParameters label = some plan') : plan.Extends plan' := by
  simp only [addInputParameters, Option.bind_eq_bind, Option.bind_eq_some_iff, Option.pure_def,
    Option.some_inj] at h
  obtain ⟨position, -, input, hget, typeId, -, rfl⟩ := h
  exact ⟨fun _ hb => hb, map_set_of_eq hget rfl⟩

theorem isSome_addInputParameters {label : String} {input : Input} (hm : input ∈ plan.inputs)
    (hl : input.label = label) (ht : ∀ id ∈ plan.inputs.map Input.typeId, id.isSome = true) :
    (plan.addInputParameters label).isSome = true := by
  rcases hpos : plan.inputs.findIdx? (fun input => input.label == label) with _ | position
  · exact absurd hl (by simpa using List.findIdx?_eq_none_iff.mp hpos input hm)
  · obtain ⟨hlt, -, -⟩ := List.findIdx?_eq_some_iff_getElem.mp hpos
    have hid := ht _ (List.mem_map_of_mem (List.getElem_mem hlt))
    obtain ⟨id, hid⟩ := Option.isSome_iff_exists.mp hid
    simp [addInputParameters, hpos, List.getElem?_eq_getElem hlt, hid]

theorem useInput_extends {label : String} (h : plan.useInput label = some plan') :
    plan.Extends plan' := by
  unfold useInput at h
  split at h
  · cases h
    exact .refl plan
  · split_ifs at h
    · exact addInputParameters_eq_some h
    · cases h
      exact .refl plan

theorem isSome_useInput (label : String)
    (ht : ∀ id ∈ plan.inputs.map Input.typeId, id.isSome = true) :
    (plan.useInput label).isSome = true := by
  unfold useInput
  split
  · rfl
  · rename_i input hi
    split_ifs
    · exact isSome_addInputParameters (List.mem_of_find?_eq_some hi)
        (by simpa using List.find?_some hi) ht
    · rfl

end FactGraph.Plan
