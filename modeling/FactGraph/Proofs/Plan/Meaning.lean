import FactGraph.Plan.Basic
import Mathlib.Tactic.Common

/-! # What plans mean

Against stored rows, a plan holds of an assignment of facts to its slots if the inputs that have
parameters are pinned by them, every unconditional edge is stored, and no group matches. A group sees
the slots of the branches around it: the inputs, and the ends of their edges. It matches if facts can
be assigned to its other slots so that its edges are stored and no group inside of it matches.

* `Plan.Group.holds_append`: the parts of a branch hold one after the other.
* `Plan.Group.holds_congr`: only the slots of a group count. -/

namespace FactGraph

/-- What statements see of stored facts. -/
structure Rows (Node : Type) where
  /-- The number of the type of a fact. -/
  typeId : Node → Option Int
  hash : Node → String
  /-- An edge of the role of a number is stored from a successor to a predecessor. -/
  edge : Int → Node → Node → Prop

namespace Plan

variable {Node : Type}

/-- The parameter at a position, counted from 1. -/
def parameterAt (parameters : List Parameter) : Nat → Option Parameter
  | 0 => none
  | position + 1 => parameters[position]?

/-- Two assignments of facts agree on some slots. -/
def Agree (slots : List Nat) (τ σ : Nat → Node) : Prop := ∀ slot ∈ slots, τ slot = σ slot

/-- The slots at the ends of an edge. -/
def Edge.slots (edge : Edge) : List Nat := [edge.predecessor, edge.successor]

/-- The slots at the ends of edges. -/
def ends (edges : List Edge) : List Nat := edges.flatMap Edge.slots

variable (R : Rows Node) (parameters : List Parameter)

/-- An edge is stored between the facts at its ends. -/
def Edge.Holds (σ : Nat → Node) (edge : Edge) : Prop :=
  ∃ role, parameterAt parameters edge.roleParameter = some (.integer role) ∧
    R.edge role (σ edge.successor) (σ edge.predecessor)

/-- The parameters of an input, as far as it has some, are those of the fact in its slot. -/
def Input.Pinned (σ : Nat → Node) (input : Input) : Prop :=
  (∀ position ∈ input.typeParameter, ∃ id, parameterAt parameters position = some (.integer id) ∧
    R.typeId (σ input.slot) = some id) ∧
  ∀ position ∈ input.hashParameter, parameterAt parameters position =
    some (.text (R.hash (σ input.slot)))

namespace Group

mutual

/-- The edges of a group are stored, and no group inside of it matches. The group sees the slots of
`outer`. -/
def Holds (outer : List Nat) (σ : Nat → Node) : Group → Prop
  | ⟨edges, groups⟩ => (∀ edge ∈ edges, edge.Holds R parameters σ) ∧
      NoneMatches (outer ++ ends edges) σ groups

/-- No group matches, whatever facts are in the slots that the groups do not see. -/
def NoneMatches (outer : List Nat) (σ : Nat → Node) : List Group → Prop
  | [] => True
  | group :: rest => (¬ ∃ τ, Agree outer τ σ ∧ group.Holds outer τ) ∧ NoneMatches outer σ rest

end

/-- Facts can be assigned to the slots of a group that it does not see, so that it holds. -/
def Matches (outer : List Nat) (σ : Nat → Node) (group : Group) : Prop :=
  ∃ τ, Agree outer τ σ ∧ group.Holds R parameters outer τ

end Group

end Plan

/-- A plan as the group of its unconditional edges and its groups. -/
def Plan.trunk (plan : Plan) : Plan.Group := ⟨plan.edges, plan.groups⟩

/-- **A plan holds of an assignment of facts to its slots.** -/
def Plan.Holds {Node : Type} (R : Rows Node) (plan : Plan) (σ : Nat → Node) : Prop :=
  (∀ input ∈ plan.inputs, input.Pinned R plan.parameters σ) ∧
    plan.trunk.Holds R plan.parameters (plan.inputs.map Plan.Input.slot) σ

namespace Plan

variable {Node : Type} {R : Rows Node} {parameters : List Parameter}

/-! ### Agreement and ends -/

theorem Agree.refl {slots : List Nat} (σ : Nat → Node) : Agree slots σ σ := fun _ _ => rfl

theorem Agree.symm {slots : List Nat} {τ σ : Nat → Node} (h : Agree slots τ σ) :
    Agree slots σ τ := fun s hs => (h s hs).symm

theorem Agree.trans {slots : List Nat} {υ τ σ : Nat → Node} (h : Agree slots υ τ)
    (h' : Agree slots τ σ) : Agree slots υ σ := fun s hs => (h s hs).trans (h' s hs)

theorem Agree.mono {slots slots' : List Nat} {τ σ : Nat → Node} (h : Agree slots τ σ)
    (hs : slots' ⊆ slots) : Agree slots' τ σ := fun s hmem => h s (hs hmem)

@[simp]
theorem ends_append {a b : List Edge} : ends (a ++ b) = ends a ++ ends b := by
  simp [ends]

theorem Edge.slots_subset_ends {edge : Edge} {edges : List Edge} (h : edge ∈ edges) :
    edge.slots ⊆ ends edges :=
  fun _ hs => List.mem_flatMap.mpr ⟨edge, h, hs⟩

theorem Edge.holds_congr {edge : Edge} {τ σ : Nat → Node} (h : Agree edge.slots τ σ) :
    edge.Holds R parameters τ ↔ edge.Holds R parameters σ := by
  unfold Edge.Holds
  rw [h edge.successor (by simp [Edge.slots]), h edge.predecessor (by simp [Edge.slots])]

namespace Group

/-! ### Slots of groups -/

mutual

/-- The slots of a group and of the groups inside of it. -/
def slots : Group → List Nat
  | ⟨edges, groups⟩ => ends edges ++ slotsAll groups

/-- The slots of groups. -/
def slotsAll : List Group → List Nat
  | [] => []
  | group :: rest => group.slots ++ slotsAll rest

end

theorem slots_eq (group : Group) : group.slots = ends group.edges ++ slotsAll group.groups := by
  obtain ⟨edges, groups⟩ := group
  rfl

theorem mem_slots_of_mem_ends {group : Group} {s : Nat} (h : s ∈ ends group.edges) :
    s ∈ group.slots := by
  rw [slots_eq]
  exact List.mem_append_left _ h

theorem slotsAll_append : ∀ {a b : List Group}, slotsAll (a ++ b) = slotsAll a ++ slotsAll b
  | [], _ => rfl
  | group :: rest, b => by
    rw [List.cons_append, slotsAll, slotsAll, slotsAll_append, List.append_assoc]

theorem holds_iff {outer : List Nat} {σ : Nat → Node} {group : Group} :
    group.Holds R parameters outer σ ↔ (∀ edge ∈ group.edges, edge.Holds R parameters σ) ∧
      NoneMatches R parameters (outer ++ ends group.edges) σ group.groups := by
  obtain ⟨edges, groups⟩ := group
  rfl

theorem holds_edges {outer : List Nat} {σ : Nat → Node} {edges : List Edge} :
    (⟨edges, []⟩ : Group).Holds R parameters outer σ ↔
      ∀ edge ∈ edges, edge.Holds R parameters σ := by
  rw [holds_iff]
  simp [NoneMatches]

theorem noneMatches_append {outer : List Nat} {σ : Nat → Node} : ∀ {a b : List Group},
    NoneMatches R parameters outer σ (a ++ b) ↔
      NoneMatches R parameters outer σ a ∧ NoneMatches R parameters outer σ b
  | [], _ => by simp [NoneMatches]
  | group :: rest, b => by
    rw [List.cons_append, NoneMatches, NoneMatches, noneMatches_append, and_assoc]

theorem noneMatches_singleton {outer : List Nat} {σ : Nat → Node} {group : Group} :
    NoneMatches R parameters outer σ [group] ↔ ¬ group.Matches R parameters outer σ := by
  simp only [NoneMatches, and_true, Matches]

/-! ### Congruence -/

mutual

/-- Only the slots of a group count for whether it holds: which of them are seen, and the facts in
those that are seen or ends of its edges. -/
theorem holds_congr {outer outer' : List Nat} {τ σ : Nat → Node} : ∀ (group : Group),
    (∀ s ∈ group.slots, s ∈ outer ↔ s ∈ outer') →
    (∀ s ∈ group.slots, s ∈ outer ∨ s ∈ ends group.edges → τ s = σ s) →
    (group.Holds R parameters outer τ ↔ group.Holds R parameters outer' σ)
  | ⟨edges, groups⟩, ho, hs => by
    rw [slots_eq] at ho hs
    refine and_congr ?_ (noneMatches_congr groups ?_ ?_)
    · refine forall₂_congr fun edge he => Edge.holds_congr fun s hmem => ?_
      have hend := Edge.slots_subset_ends he hmem
      exact hs s (List.mem_append_left _ hend) (Or.inr hend)
    · intro s hmem
      rw [List.mem_append, List.mem_append, ho s (List.mem_append_right _ hmem)]
    · intro s hmem hout
      exact hs s (List.mem_append_right _ hmem) (List.mem_append.mp hout)

theorem noneMatches_congr {outer outer' : List Nat} {τ σ : Nat → Node} : ∀ (groups : List Group),
    (∀ s ∈ slotsAll groups, s ∈ outer ↔ s ∈ outer') →
    (∀ s ∈ slotsAll groups, s ∈ outer → τ s = σ s) →
    (NoneMatches R parameters outer τ groups ↔ NoneMatches R parameters outer' σ groups)
  | [], _, _ => Iff.rfl
  | group :: rest, ho, hs => by
    simp only [slotsAll, List.mem_append] at ho hs
    -- an assignment is carried over on the slots of the group, and agrees elsewhere
    have hcarry : ∀ {o o' : List Nat} {υ υ' : Nat → Node},
        (∀ s ∈ group.slots, s ∈ o ↔ s ∈ o') → (∀ s ∈ group.slots, s ∈ o → υ s = υ' s) →
        (∀ {ρ ρ' : Nat → Node}, (∀ s ∈ group.slots, ρ s = ρ' s) →
          (group.Holds R parameters o ρ ↔ group.Holds R parameters o' ρ')) →
        (∃ ρ, Agree o ρ υ ∧ group.Holds R parameters o ρ) →
          ∃ ρ, Agree o' ρ υ' ∧ group.Holds R parameters o' ρ := by
      rintro o o' υ υ' hoo hυ hcongr ⟨ρ, ha, hh⟩
      refine ⟨fun s => if s ∈ group.slots then ρ s else υ' s, fun s hmem => ?_, ?_⟩
      · by_cases hg : s ∈ group.slots
        · have hout := (hoo s hg).mpr hmem
          simp only [if_pos hg, ha s hout, hυ s hg hout]
        · simp only [if_neg hg]
      · exact (hcongr fun s hg => by simp only [if_pos hg]).mp hh
    refine and_congr (not_congr ⟨?_, ?_⟩)
      (noneMatches_congr rest (fun s h => ho s (Or.inr h)) fun s h => hs s (Or.inr h))
    · exact hcarry (fun s h => ho s (Or.inl h)) (fun s h => hs s (Or.inl h)) fun {ρ ρ'} h =>
        holds_congr group (fun s hg => ho s (Or.inl hg)) fun s hg _ => h s hg
    · refine hcarry (fun s h => (ho s (Or.inl h)).symm) (fun s h hout => ?_) fun {ρ ρ'} h =>
        holds_congr group (fun s hg => (ho s (Or.inl hg)).symm) fun s hg _ => h s hg
      exact (hs s (Or.inl h) ((ho s (Or.inl h)).mpr hout)).symm

end

/-! ### Branches in parts -/

/-- Both parts of a branch. -/
def append (first second : Group) : Group :=
  ⟨first.edges ++ second.edges, first.groups ++ second.groups⟩

instance : Append Group := ⟨append⟩

theorem edges_append {first second : Group} :
    (first ++ second).edges = first.edges ++ second.edges := rfl

theorem groups_append {first second : Group} :
    (first ++ second).groups = first.groups ++ second.groups := rfl

theorem append_assoc (a b c : Group) : a ++ b ++ c = a ++ (b ++ c) := by
  show (⟨_, _⟩ : Group) = ⟨_, _⟩
  simp only [edges_append, groups_append, List.append_assoc]

theorem mem_slots_append {first second : Group} {s : Nat} :
    s ∈ (first ++ second).slots ↔ s ∈ first.slots ∨ s ∈ second.slots := by
  simp only [slots_eq, edges_append, groups_append, ends_append, slotsAll_append, List.mem_append]
  tauto

/-- **The parts of a branch hold one after the other.** The first part must not mention, without
seeing them, slots that the second part joins. -/
theorem holds_append {outer : List Nat} {σ : Nat → Node} {first second : Group}
    (h : ∀ s ∈ first.slots, s ∈ ends second.edges → s ∈ outer ∨ s ∈ ends first.edges) :
    (first ++ second).Holds R parameters outer σ ↔ first.Holds R parameters outer σ ∧
      second.Holds R parameters (outer ++ ends first.edges) σ := by
  have hfirst : NoneMatches R parameters (outer ++ (ends first.edges ++ ends second.edges)) σ
      first.groups ↔ NoneMatches R parameters (outer ++ ends first.edges) σ first.groups := by
    refine noneMatches_congr _ (fun s hs => ?_) fun _ _ _ => rfl
    have := h s (by rw [slots_eq]; exact List.mem_append_right _ hs)
    simp only [List.mem_append]
    tauto
  simp only [holds_iff, edges_append, groups_append, ends_append, List.forall_mem_append,
    noneMatches_append, hfirst, List.append_assoc]
  tauto

end Group

end Plan

end FactGraph
