import FactGraph.Proofs.Except
import FactGraph.Proofs.Plan.Meaning
import Mathlib.Data.List.Forall2

/-! # How plans grow

Whatever is joined onto the branch of a path becomes a part of that branch, behind what stands there,
and nothing else changes in the branches. `Plan.Grows` says so of two plans, together with what the
new part may mention: slots that are known before, and slots that are new.

* `Plan.addEdge_eq_ok`, `Plan.addGroup_eq_ok`: what the operations append.
* `Plan.Grows.trans`, `Plan.Grows.of_addGroup`: growth in steps, and growth inside a new group. -/

namespace FactGraph.Plan

namespace Group

/-! ### Growth at a path -/

/-- Appends a part to the branch of a path. -/
def grow (added : Group) : List Nat → Group → Group
  | [], group => group ++ added
  | index :: path, group => ⟨group.edges, group.groups.modify index (grow added path)⟩

theorem append_empty (group : Group) : group ++ empty = group := by
  obtain ⟨edges, groups⟩ := group
  show (⟨edges ++ [], groups ++ []⟩ : Group) = _
  rw [List.append_nil, List.append_nil]

theorem empty_append (group : Group) : empty ++ group = group := by
  obtain ⟨edges, groups⟩ := group
  rfl

theorem modify_congr {α : Type} {f g : α → α} {l : List α} {i : Nat} (h : ∀ a ∈ l[i]?, f a = g a) :
    l.modify i f = l.modify i g := by
  refine List.ext_getElem? fun j => ?_
  rw [List.getElem?_modify, List.getElem?_modify]
  by_cases hj : i = j
  · subst hj
    rcases hl : l[i]? with _ | a
    · rfl
    · simp [h a hl]
  · simp [hj]

theorem modify_last {α : Type} {f : α → α} {a : α} : ∀ {l : List α},
    (l ++ [a]).modify l.length f = l ++ [f a]
  | [] => rfl
  | b :: l => by
    rw [List.cons_append, List.length_cons, List.modify_succ_cons, modify_last, List.cons_append]

theorem grow_empty : ∀ (path : List Nat) (group : Group), grow empty path group = group
  | [], group => append_empty group
  | index :: path, ⟨edges, groups⟩ => by
    have hid : grow empty path = id := funext (grow_empty path)
    rw [grow, hid, List.modify_id]

theorem grow_grow {first second : Group} : ∀ {path : List Nat} {group : Group},
    grow second path (grow first path group) = grow (first ++ second) path group
  | [], group => append_assoc group first second
  | index :: path, group => by
    have hcomp : grow second path ∘ grow first path = grow (first ++ second) path :=
      funext fun _ => grow_grow
    rw [grow, grow, grow, List.modify_modify_eq, hcomp]

/-- A path leads from a branch to a branch inside of it. -/
def Leads : List Nat → Group → Group → Prop
  | [], group, branch => group = branch
  | index :: path, group, branch => ∃ inner ∈ group.groups[index]?, Leads path inner branch

theorem getElem?_groups_append {group added inner : Group} {index : Nat}
    (hi : group.groups[index]? = some inner) : (group ++ added).groups[index]? = some inner := by
  rw [groups_append, List.getElem?_append_left (List.getElem?_eq_some_iff.mp hi).1]
  exact hi

/-- If something grows at a path into a group, only the first group on the path changes. -/
theorem getElem?_groups_grow {added group inner : Group} {first index : Nat} {path : List Nat}
    (hi : group.groups[index]? = some inner) :
    (grow added (first :: path) group).groups[index]? =
      some (if first = index then grow added path inner else inner) := by
  show (group.groups.modify first _)[index]? = _
  rw [List.getElem?_modify, hi]
  rfl

theorem grow_new_group {added : Group} : ∀ {path : List Nat} {group branch : Group},
    Leads path group branch →
      grow added (path ++ [branch.groups.length]) (grow ⟨[], [empty]⟩ path group) =
        grow ⟨[], [added]⟩ path group
  | [], group, branch, h => by
    subst h
    show (⟨group.edges ++ [], (group.groups ++ [empty]).modify _ _⟩ : Group) =
      ⟨group.edges ++ [], group.groups ++ [added]⟩
    rw [modify_last, List.append_nil, grow, empty_append]
  | index :: path, group, branch, ⟨inner, hi, h⟩ => by
    show (⟨_, (group.groups.modify _ _).modify _ _⟩ : Group) = ⟨_, group.groups.modify _ _⟩
    rw [List.modify_modify_eq]
    refine congrArg _ (modify_congr fun a ha => ?_)
    obtain rfl : inner = a := Option.some_inj.mp (hi.symm.trans ha)
    exact grow_new_group h

theorem set_eq_modify {α : Type} {f : α → α} {l : List α} {i : Nat} {a : α} (h : l[i]? = some a) :
    l.set i (f a) = l.modify i f := by
  refine List.ext_getElem? fun j => ?_
  rw [List.getElem?_set', List.getElem?_modify]
  by_cases hj : i = j
  · subst hj
    simp [h]
  · simp [hj]

theorem modify_eq_ok {change : Group → Group} {added : Group} (hc : ∀ g, change g = g ++ added) :
    ∀ {path : List Nat} {groups groups' : List Group}, modify change groups path = .ok groups' →
      ∀ edges, (⟨edges, groups'⟩ : Group) = grow added path ⟨edges, groups⟩
  | [], _, _, h, _ => by cases h
  | index :: path, groups, groups', h, edges => by
    rw [modify] at h
    rcases hi : groups[index]? with _ | inner <;> simp only [hi] at h
    · cases h
    · rw [grow, ← set_eq_modify hi]
      split_ifs at h with hp
      · obtain rfl := List.isEmpty_iff.mp hp
        cases h
        rw [hc, grow]
      · obtain ⟨inner', hm, hg⟩ := Except.bind_eq_ok_iff.mp h
        cases hg
        obtain ⟨innerEdges, innerGroups⟩ := inner
        rw [modify_eq_ok hc hm innerEdges]

theorem leads_of_at? : ∀ {path : List Nat} {groups : List Group} {branch : Group},
    at? groups path = .ok branch → ∀ edges, Leads path ⟨edges, groups⟩ branch
  | [], _, _, h, _ => by cases h
  | index :: path, groups, branch, h, edges => by
    rw [at?] at h
    rcases hi : groups[index]? with _ | inner <;> simp only [hi] at h
    · cases h
    · refine ⟨inner, hi, ?_⟩
      split_ifs at h with hp
      · obtain rfl := List.isEmpty_iff.mp hp
        cases h
        rfl
      · obtain ⟨innerEdges, innerGroups⟩ := inner
        exact leads_of_at? h innerEdges

end Group

/-! ### The operations -/

theorem addEdge_eq_ok {plan plan' : Plan} {predecessor successor role : Nat} {path : List Nat}
    (h : plan.addEdge predecessor successor role path = .ok plan') :
    plan'.trunk = Group.grow ⟨[⟨plan.edgeCount + 1, predecessor, successor, role⟩], []⟩ path
        plan.trunk ∧ plan'.inputs = plan.inputs ∧ plan'.parameters = plan.parameters ∧
      plan'.facts = plan.facts := by
  unfold addEdge at h
  split_ifs at h with hp
  · obtain rfl := List.isEmpty_iff.mp hp
    cases h
    refine ⟨?_, rfl, rfl, rfl⟩
    show (⟨_, _⟩ : Group) = ⟨_, _ ++ []⟩
    rw [List.append_nil]
    rfl
  · obtain ⟨groups, hm, hg⟩ := Except.bind_eq_ok_iff.mp h
    cases hg
    refine ⟨Group.modify_eq_ok (fun g => ?_) hm plan.edges, rfl, rfl, rfl⟩
    show (⟨_, _⟩ : Group) = ⟨_, _ ++ []⟩
    rw [List.append_nil]

theorem addGroup_eq_ok {plan plan' : Plan} {path path' : List Nat}
    (h : plan.addGroup path = .ok (plan', path')) :
    (∀ added, Group.grow added path' plan'.trunk = Group.grow ⟨[], [added]⟩ path plan.trunk) ∧
      plan'.inputs = plan.inputs ∧ plan'.parameters = plan.parameters ∧
      plan'.facts = plan.facts := by
  unfold addGroup at h
  split_ifs at h with hp
  · obtain rfl := List.isEmpty_iff.mp hp
    cases h
    refine ⟨fun added => ?_, rfl, rfl, rfl⟩
    have hnew := @Group.grow_new_group added [] plan.trunk _ rfl
    rw [← hnew]
    show _ = Group.grow added ([] ++ [_]) ⟨plan.edges ++ [], plan.groups ++ [Group.empty]⟩
    rw [List.append_nil]
    rfl
  · obtain ⟨outer, ho, h⟩ := Except.bind_eq_ok_iff.mp h
    obtain ⟨groups, hm, hg⟩ := Except.bind_eq_ok_iff.mp h
    cases hg
    refine ⟨fun added => ?_, rfl, rfl, rfl⟩
    have hempty : ∀ g : Group, (⟨g.edges, g.groups ++ [Group.empty]⟩ : Group) =
        g ++ ⟨[], [Group.empty]⟩ := fun g => by
      show _ = (⟨g.edges ++ [], _⟩ : Group)
      rw [List.append_nil]
    exact (congrArg _ (Group.modify_eq_ok hempty hm plan.edges)).trans
      (Group.grow_new_group (Group.leads_of_at? ho plan.edges))

/-! ### Inputs that are used -/

/-- An input is one of a start, or that input with the parameters that hold its type and hash. -/
def Input.DerivesFrom (parameters : List Parameter) (input derived : Input) : Prop :=
  derived = input ∨ ∃ id position position', input.typeId = some id ∧
    parameterAt parameters position = some (.integer id) ∧
    parameterAt parameters position' = some (.text input.hash) ∧
    derived = { input with typeParameter := some position, hashParameter := some position' }

/-- The inputs of a plan are those of a start, some of them with parameters. -/
def DerivesFrom (plan : Plan) (inputs : List Input) : Prop :=
  List.Forall₂ (Input.DerivesFrom plan.parameters) inputs plan.inputs

/-- If a slot belongs to an input, that input has its parameters. -/
def Settles (plan : Plan) (slot : Nat) : Prop :=
  ∀ input ∈ plan.inputs, input.slot = slot → input.typeParameter.isSome = true

/-! ### Growth of plans -/

/-- A part has been appended to the branch of a path, which mentions no slots but known ones and new
ones, and only inputs that have their parameters. -/
structure Grows (path : List Nat) (known : List Nat) (old new : Plan) (added : Group) : Prop where
  trunk : new.trunk = Group.grow added path old.trunk
  parameters : old.parameters <+: new.parameters
  facts : old.facts.length ≤ new.facts.length
  derives : ∀ inputs, old.DerivesFrom inputs → new.DerivesFrom inputs
  settles : ∀ slot, old.Settles slot → new.Settles slot
  slots : ∀ s ∈ added.slots, s ∈ known ∨ old.facts.length < s ∧ s ≤ new.facts.length
  settled : ∀ s ∈ added.slots, new.Settles s

theorem parameterAt_of_prefix {parameters parameters' : List Parameter} {position : Nat}
    {parameter : Parameter} (hp : parameters <+: parameters')
    (h : parameterAt parameters position = some parameter) :
    parameterAt parameters' position = some parameter := by
  obtain ⟨more, rfl⟩ := hp
  cases position with
  | zero => cases h
  | succ position =>
    rw [parameterAt] at h ⊢
    rw [List.getElem?_append_left (List.getElem?_eq_some_iff.mp h).1, h]

theorem parameterAt_addParameter (plan : Plan) (parameter : Parameter) :
    parameterAt (plan.addParameter parameter).1.parameters (plan.addParameter parameter).2 =
      some parameter := by
  show (plan.parameters ++ [parameter])[plan.parameters.length]? = _
  rw [List.getElem?_concat_length]

theorem Input.DerivesFrom.mono {parameters parameters' : List Parameter} {input derived : Input}
    (hp : parameters <+: parameters') (h : input.DerivesFrom parameters derived) :
    input.DerivesFrom parameters' derived := by
  obtain rfl | ⟨id, position, position', hid, ht, hh, rfl⟩ := h
  · exact Or.inl rfl
  · exact Or.inr ⟨id, position, position', hid, parameterAt_of_prefix hp ht,
      parameterAt_of_prefix hp hh, rfl⟩

theorem Grows.of_inputs_eq {path known : List Nat} {old new : Plan} {added : Group}
    (hi : new.inputs = old.inputs) (ht : new.trunk = Group.grow added path old.trunk)
    (hp : old.parameters <+: new.parameters) (hf : old.facts.length ≤ new.facts.length)
    (hb : ∀ input ∈ old.inputs, input.slot ≤ old.facts.length)
    (hk : ∀ s ∈ known, old.Settles s)
    (hs : ∀ s ∈ added.slots, s ∈ known ∨ old.facts.length < s ∧ s ≤ new.facts.length) :
    Grows path known old new added where
  trunk := ht
  parameters := hp
  facts := hf
  derives inputs h := by
    unfold DerivesFrom at h ⊢
    rw [hi]
    exact h.imp fun _ _ => Input.DerivesFrom.mono hp
  settles slot h := by
    unfold Settles at h ⊢
    rwa [hi]
  slots := hs
  settled s hmem := by
    unfold Settles
    rw [hi]
    rcases hs s hmem with h | ⟨h, -⟩
    · exact hk s h
    · -- the slots of inputs are older
      intro input hin he
      have := hb input hin
      omega

theorem Grows.refl {path known : List Nat} (plan : Plan) :
    Grows path known plan plan Group.empty where
  trunk := (Group.grow_empty path plan.trunk).symm
  parameters := List.prefix_refl _
  facts := Nat.le_refl _
  derives _ h := h
  settles _ h := h
  slots _ h := by cases h
  settled _ h := by cases h

theorem Grows.addOutput {path known : List Nat} {old new : Plan} {added : Group}
    (h : Grows path known old new added) (label type : String) (slot : Nat) :
    Grows path known old (new.addOutput label type slot) added :=
  ⟨h.trunk, h.parameters, h.facts, h.derives, h.settles, h.slots, h.settled⟩

/-- Growth in two steps. What the second one knows is known to the first one, or mentioned by it. -/
theorem Grows.trans {path known known' : List Nat} {a b c : Plan} {first second : Group}
    (h : Grows path known a b first) (h' : Grows path known' b c second)
    (hk : ∀ s ∈ known', s ∈ known ∨ s ∈ first.slots) :
    Grows path known a c (first ++ second) where
  trunk := by rw [h'.trunk, h.trunk, Group.grow_grow]
  parameters := h.parameters.trans h'.parameters
  facts := Nat.le_trans h.facts h'.facts
  derives inputs hd := h'.derives inputs (h.derives inputs hd)
  settles slot hs := h'.settles slot (h.settles slot hs)
  slots s hs := by
    have hfirst : s ∈ first.slots → s ∈ known ∨ a.facts.length < s ∧ s ≤ c.facts.length := by
      intro hmem
      have := h'.facts
      exact (h.slots s hmem).imp_right fun hn => by omega
    rcases Group.mem_slots_append.mp hs with hs | hs
    · exact hfirst hs
    · rcases h'.slots s hs with hn | hn
      · exact (hk s hn).elim Or.inl hfirst
      · have := h.facts
        exact Or.inr (by omega)
  settled s hs := by
    rcases Group.mem_slots_append.mp hs with hs | hs
    · exact h'.settles s (h.settled s hs)
    · exact h'.settled s hs

theorem Grows.of_addGroup {path path' known : List Nat} {plan opened new : Plan} {added : Group}
    (ha : plan.addGroup path = .ok (opened, path')) (h : Grows path' known opened new added) :
    Grows path known plan new ⟨[], [added]⟩ := by
  obtain ⟨ht, hi, hp, hf⟩ := addGroup_eq_ok ha
  have hslots : ∀ s, s ∈ (⟨[], [added]⟩ : Group).slots ↔ s ∈ added.slots := by
    simp [Group.slots_eq, ends, Group.slotsAll]
  have hpf : plan.parameters <+: new.parameters := hp ▸ h.parameters
  refine ⟨by rw [h.trunk, ht], hpf, hf ▸ h.facts, fun inputs hd => h.derives inputs ?_,
    fun slot hs => h.settles slot ?_, fun s hs => ?_, fun s hs => h.settled s ((hslots s).mp hs)⟩
  · unfold DerivesFrom
    rwa [hi, hp]
  · unfold Settles
    rwa [hi]
  · rw [← hf]
    exact h.slots s ((hslots s).mp hs)

end FactGraph.Plan
