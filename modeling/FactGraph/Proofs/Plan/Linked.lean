import FactGraph.Proofs.Plan.Branches

/-! # Linked plans

Every edge of a plan comes with a slot of its own: the slot that follows those of the inputs by as
much as the edge has for its number. A branch is linked if each of its edges leads from a slot that
is seen before it to its own slot, which nothing has seen, and its groups go on from there.

* `Plan.Group.Linked.congr`: only the slots of a group count.
* `Plan.Group.Linked.append`: linked parts of a branch are linked one after the other.
* `Plan.Group.edgeCount_grow`: what grows at a path adds its edges to those of the plan. -/

namespace FactGraph.Plan

variable {count : Nat} {seen seen' : List Nat}

/-! ### Edges that open their slots -/

/-- An edge leads from a slot that is seen to its own slot, which is not. -/
inductive Edge.Opens (count : Nat) (seen : List Nat) (edge : Edge) : Prop
  | up (near : edge.successor ∈ seen) (own : edge.predecessor = count + edge.index)
      (fresh : edge.predecessor ∉ seen)
  | down (near : edge.predecessor ∈ seen) (own : edge.successor = count + edge.index)
      (fresh : edge.successor ∉ seen)

/-- Edges open their slots one after the other. -/
def AllOpen (count : Nat) : (seen : List Nat) → List Edge → Prop
  | _, [] => True
  | seen, edge :: rest => edge.Opens count seen ∧ AllOpen count (seen ++ edge.slots) rest

theorem Edge.predecessor_mem_slots {edge : Edge} : edge.predecessor ∈ edge.slots :=
  List.mem_cons_self

theorem Edge.successor_mem_slots {edge : Edge} : edge.successor ∈ edge.slots :=
  List.mem_cons_of_mem _ List.mem_cons_self

theorem Edge.Opens.congr {edge : Edge} (hs : ∀ s ∈ edge.slots, s ∈ seen ↔ s ∈ seen')
    (h : edge.Opens count seen) : edge.Opens count seen' := by
  have hp := hs edge.predecessor edge.predecessor_mem_slots
  have hq := hs edge.successor edge.successor_mem_slots
  cases h with
  | up near own fresh => exact .up (hq.mp near) own (mt hp.mpr fresh)
  | down near own fresh => exact .down (hp.mp near) own (mt hq.mpr fresh)

theorem AllOpen.congr : ∀ {edges : List Edge} {seen seen' : List Nat},
    (∀ s ∈ ends edges, s ∈ seen ↔ s ∈ seen') → AllOpen count seen edges →
      AllOpen count seen' edges
  | [], _, _, _, _ => trivial
  | edge :: rest, seen, seen', hs, ⟨h, hrest⟩ => by
    refine ⟨h.congr fun s hm => hs s (List.mem_append_left _ hm), hrest.congr fun s hm => ?_⟩
    rw [List.mem_append, List.mem_append, hs s (List.mem_append_right _ hm)]

theorem allOpen_append : ∀ {a b : List Edge} {seen : List Nat},
    AllOpen count seen (a ++ b) ↔ AllOpen count seen a ∧ AllOpen count (seen ++ ends a) b
  | [], b, seen => by simp [AllOpen, ends]
  | edge :: rest, b, seen => by
    rw [List.cons_append, AllOpen, AllOpen, allOpen_append, and_assoc, List.append_assoc]
    rfl

theorem Edge.Opens.mem_or_eq {edge : Edge} (h : edge.Opens count seen) {s : Nat}
    (hs : s ∈ edge.slots) : s ∈ seen ∨ s = count + edge.index := by
  obtain rfl | rfl : s = edge.predecessor ∨ s = edge.successor := by simpa [Edge.slots] using hs
  · cases h with
    | up _ own _ => exact Or.inr own
    | down near _ _ => exact Or.inl near
  · cases h with
    | up near _ _ => exact Or.inl near
    | down _ own _ => exact Or.inr own

theorem Edge.Opens.own {edge : Edge} (h : edge.Opens count seen) :
    count + edge.index ∈ edge.slots ∧ count + edge.index ∉ seen := by
  cases h with
  | up _ own fresh => exact ⟨own ▸ edge.predecessor_mem_slots, own ▸ fresh⟩
  | down _ own fresh => exact ⟨own ▸ edge.successor_mem_slots, own ▸ fresh⟩

namespace Group

/-! ### Linked groups -/

mutual

/-- The edges of a group open their slots one after the other, and the groups inside of it go on
from all of these slots. -/
def Linked (count : Nat) (seen : List Nat) : Group → Prop
  | ⟨edges, groups⟩ => AllOpen count seen edges ∧ AllLinked count (seen ++ ends edges) groups

/-- Some groups go on from the slots that are seen. -/
def AllLinked (count : Nat) (seen : List Nat) : List Group → Prop
  | [] => True
  | group :: rest => group.Linked count seen ∧ AllLinked count seen rest

end

theorem linked_iff {group : Group} : group.Linked count seen ↔
    AllOpen count seen group.edges ∧ AllLinked count (seen ++ ends group.edges) group.groups := by
  obtain ⟨edges, groups⟩ := group
  rfl

theorem allLinked_append : ∀ {a b : List Group},
    AllLinked count seen (a ++ b) ↔ AllLinked count seen a ∧ AllLinked count seen b
  | [], b => by simp [AllLinked]
  | group :: rest, b => by
    rw [List.cons_append, AllLinked, AllLinked, allLinked_append, and_assoc]

mutual

/-- **Whether a group is linked depends on which of its slots are seen.** -/
theorem Linked.congr {seen seen' : List Nat} : ∀ {group : Group},
    (∀ s ∈ group.slots, s ∈ seen ↔ s ∈ seen') → group.Linked count seen →
      group.Linked count seen'
  | ⟨edges, groups⟩, hs, ⟨hopen, hgroups⟩ => by
    rw [slots_eq] at hs
    refine ⟨hopen.congr fun s hm => hs s (List.mem_append_left _ hm),
      AllLinked.congr (fun s hm => ?_) hgroups⟩
    rw [List.mem_append, List.mem_append, hs s (List.mem_append_right _ hm)]

theorem AllLinked.congr {seen seen' : List Nat} : ∀ {groups : List Group},
    (∀ s ∈ slotsAll groups, s ∈ seen ↔ s ∈ seen') → AllLinked count seen groups →
      AllLinked count seen' groups
  | [], _, _ => trivial
  | _ :: _, hs, ⟨h, hrest⟩ =>
    ⟨Linked.congr (fun s hm => hs s (List.mem_append_left _ hm)) h,
      AllLinked.congr (fun s hm => hs s (List.mem_append_right _ hm)) hrest⟩

end

/-- **The parts of a branch are linked one after the other.** The first part must not mention,
without seeing them, slots that the second part joins. -/
theorem Linked.append {first second : Group}
    (hs : ∀ s ∈ first.slots, s ∈ ends second.edges → s ∈ seen ∨ s ∈ ends first.edges)
    (h : first.Linked count seen) (h' : second.Linked count (seen ++ ends first.edges)) :
    (first ++ second).Linked count seen := by
  rw [linked_iff] at h h' ⊢
  rw [edges_append, groups_append, ends_append, allOpen_append, allLinked_append,
    ← List.append_assoc]
  refine ⟨⟨h.1, h'.1⟩, h.2.congr fun s hm => ?_, h'.2⟩
  have := hs s (by rw [slots_eq]; exact List.mem_append_right _ hm)
  rw [List.mem_append (s := seen ++ ends first.edges), List.mem_append]
  tauto

theorem linked_empty : empty.Linked count seen := ⟨trivial, trivial⟩

/-! ### Numbers of edges -/

mutual

/-- The numbers of the edges in a group and the groups inside of it. -/
def indices : Group → List Nat
  | ⟨edges, groups⟩ => edges.map Edge.index ++ indicesAll groups

/-- The numbers of the edges in some groups. -/
def indicesAll : List Group → List Nat
  | [] => []
  | group :: rest => group.indices ++ indicesAll rest

end

theorem indices_eq (group : Group) :
    group.indices = group.edges.map Edge.index ++ indicesAll group.groups := by
  obtain ⟨edges, groups⟩ := group
  rfl

theorem indicesAll_append : ∀ {a b : List Group},
    indicesAll (a ++ b) = indicesAll a ++ indicesAll b
  | [], _ => rfl
  | group :: rest, b => by
    rw [List.cons_append, indicesAll, indicesAll, indicesAll_append, List.append_assoc]

theorem indices_append_perm (first second : Group) :
    (first ++ second).indices.Perm (first.indices ++ second.indices) := by
  simp only [indices_eq, edges_append, groups_append, List.map_append, indicesAll_append,
    List.append_assoc]
  exact (List.perm_append_comm_assoc _ _ _).append_left _

theorem edgeCount_eq (group : Group) :
    group.edgeCount = group.edges.length + edgeCountAll group.groups := by
  obtain ⟨edges, groups⟩ := group
  rfl

theorem edgeCountAll_append : ∀ {a b : List Group},
    edgeCountAll (a ++ b) = edgeCountAll a + edgeCountAll b
  | [], b => by simp [edgeCountAll]
  | group :: rest, b => by
    rw [List.cons_append, edgeCountAll, edgeCountAll, edgeCountAll_append, Nat.add_assoc]

theorem edgeCount_append (first second : Group) :
    (first ++ second).edgeCount = first.edgeCount + second.edgeCount := by
  simp only [edgeCount_eq, edges_append, groups_append, List.length_append, edgeCountAll_append]
  omega

theorem edgeCount_group (group : Group) : (⟨[], [group]⟩ : Group).edgeCount = group.edgeCount := by
  simp [edgeCount_eq, edgeCountAll]

theorem edgeCountAll_modify {f : Group → Group} {more : Nat} {inner : Group}
    (hf : (f inner).edgeCount = inner.edgeCount + more) : ∀ {groups : List Group} {i : Nat},
      groups[i]? = some inner → edgeCountAll (groups.modify i f) = edgeCountAll groups + more
  | [], _, h => by cases h
  | group :: rest, 0, h => by
    cases h
    rw [List.modify_zero_cons, edgeCountAll, edgeCountAll, hf]
    omega
  | group :: rest, i + 1, h => by
    rw [List.modify_succ_cons, edgeCountAll, edgeCountAll,
      edgeCountAll_modify hf (by simpa using h)]
    omega

/-- **What grows at a path adds its edges.** -/
theorem edgeCount_grow {added : Group} : ∀ {path : List Nat} {group branch : Group},
    Leads path group branch → (grow added path group).edgeCount = group.edgeCount + added.edgeCount
  | [], group, _, _ => edgeCount_append group added
  | index :: path, group, branch, ⟨inner, hi, h⟩ => by
    rw [grow, edgeCount_eq, edgeCount_eq, edgeCountAll_modify (edgeCount_grow h) hi, Nat.add_assoc]

end Group

/-! ### Plans that grow -/

variable {path path' known : List Nat} {old new plan opened : Plan} {added : Group}

theorem edgeCount_eq_trunk (plan : Plan) : plan.edgeCount = plan.trunk.edgeCount := rfl

theorem edgeCount_of_grow (ht : new.trunk = Group.grow added path old.trunk)
    (hb : old.HasBranch path) : new.edgeCount = old.edgeCount + added.edgeCount := by
  obtain ⟨branch, hl⟩ := hb
  rw [edgeCount_eq_trunk, edgeCount_eq_trunk, ht, Group.edgeCount_grow hl]

theorem hasBranch_of_grow (ht : new.trunk = Group.grow added path old.trunk)
    (hb : old.HasBranch path') : new.HasBranch path' := by
  obtain ⟨branch, hl⟩ := hb
  unfold HasBranch
  rw [ht]
  exact Group.exists_leads_grow hl

theorem edgeCount_of_addGroup (h : plan.addGroup path = .ok (opened, path'))
    (hb : plan.HasBranch path) : opened.HasBranch path' ∧ opened.edgeCount = plan.edgeCount := by
  obtain ⟨opened', path'', h', -, hb'⟩ := exists_addGroup hb
  cases h.symm.trans h'
  have ht := (addGroup_eq_ok h).1 Group.empty
  rw [Group.grow_empty] at ht
  exact ⟨hb', edgeCount_of_grow ht hb⟩

end FactGraph.Plan
