import FactGraph.Proofs.Coverage.Order
import FactGraph.Proofs.Walk.Continuations
import FactGraph.Specification.Vocabulary
import Mathlib.Algebra.BigOperators.Group.Finset.Piecewise
import Mathlib.Algebra.Order.Group.Multiset
import Mathlib.Tactic.Abel

/-! # Roles that walks go through

A walk goes through a role at each of its steps, and at each step of an obligation. Counted with
their repetitions, these roles are compared with the roles that a specification writes in its path
conditions.

* `PathCondition.traversed_chain`: the chain of a path condition goes through the roles of the
  condition.
* `PathCondition.traversed_of_lead`: what a match adds to the roles that continue from labels. -/

namespace FactGraph

/-! ### Roles of walks -/

/-- The role of a step that starts from a fact of a type. -/
def Step.definition (start : String) (step : Step) : RoleDefinition :=
  match step.direction with
  | .predecessor => ⟨start, step.role, step.next.type⟩
  | .successor => ⟨step.next.type, step.role, start⟩

mutual

/-- The roles that a walk goes through, at any depth. -/
def Walk.traversed : Walk → Multiset RoleDefinition
  | ⟨type, steps, obligations⟩ =>
    Step.traversedAll type steps + Obligation.traversedAll type obligations

/-- The roles that some steps from a fact of a type go through. -/
def Step.traversedAll (start : String) : List Step → Multiset RoleDefinition
  | [] => 0
  | ⟨direction, role, next⟩ :: rest =>
    Step.definition start ⟨direction, role, next⟩ ::ₘ next.traversed +
      Step.traversedAll start rest

/-- The roles that the steps of some obligations on a fact of a type go through. -/
def Obligation.traversedAll (start : String) : List Obligation → Multiset RoleDefinition
  | [] => 0
  | ⟨_, ⟨direction, role, next⟩⟩ :: rest =>
    Step.definition start ⟨direction, role, next⟩ ::ₘ next.traversed +
      Obligation.traversedAll start rest

end

theorem Step.traversedAll_append {start : String} : ∀ {a b : List Step},
    Step.traversedAll start (a ++ b) = Step.traversedAll start a + Step.traversedAll start b
  | [], _ => by simp [Step.traversedAll]
  | ⟨direction, role, next⟩ :: rest, b => by
    rw [List.cons_append, Step.traversedAll, Step.traversedAll, Step.traversedAll_append, add_assoc]

theorem Obligation.traversedAll_append {start : String} : ∀ {a b : List Obligation},
    Obligation.traversedAll start (a ++ b) =
      Obligation.traversedAll start a + Obligation.traversedAll start b
  | [], _ => by simp [Obligation.traversedAll]
  | ⟨_, ⟨direction, role, next⟩⟩ :: rest, b => by
    rw [List.cons_append, Obligation.traversedAll, Obligation.traversedAll,
      Obligation.traversedAll_append, add_assoc]

theorem Obligation.traversedAll_map {start : String} {holds : Bool} : ∀ {steps : List Step},
    Obligation.traversedAll start (steps.map fun step => ⟨holds, step⟩) =
      Step.traversedAll start steps
  | [] => rfl
  | ⟨direction, role, next⟩ :: rest => by
    rw [List.map_cons, Obligation.traversedAll, Step.traversedAll, Obligation.traversedAll_map]

namespace Walk

theorem traversed_eq {walk : Walk} : walk.traversed =
    Step.traversedAll walk.type walk.steps +
      Obligation.traversedAll walk.type walk.obligations := by
  obtain ⟨type, steps, obligations⟩ := walk
  rw [traversed]

theorem traversed_ofType {type : String} : (ofType type).traversed = 0 := by
  simp [traversed_eq, ofType, Step.traversedAll, Obligation.traversedAll]

theorem traversed_single {type role : String} {direction : Direction} {next : Walk} :
    Walk.traversed ⟨type, [⟨direction, role, next⟩], []⟩ =
      Step.definition type ⟨direction, role, next⟩ ::ₘ next.traversed := by
  simp [traversed, Step.traversedAll, Obligation.traversedAll]

theorem traversed_merge {left right merged : Walk} (h : left.merge right = .ok merged) :
    merged.traversed = left.traversed + right.traversed := by
  unfold merge at h
  split_ifs at h with ht
  cases h
  rw [traversed, traversed_eq, traversed_eq, Step.traversedAll_append,
    Obligation.traversedAll_append, ht]
  abel

theorem traversed_oblige {walk : Walk} {obligations : List Obligation} :
    Walk.traversed { walk with obligations := walk.obligations ++ obligations } =
      walk.traversed + Obligation.traversedAll walk.type obligations := by
  rw [traversed, Obligation.traversedAll_append, traversed_eq, add_assoc]

end Walk

/-! ### Roles of specifications -/

/-- The roles among what is mentioned, as often as they are. -/
def rolesAmong (mentions : List Mention) : Multiset RoleDefinition :=
  ↑(mentions.filterMap fun
    | .type _ => none
    | .role definition => some definition)

@[simp]
theorem rolesAmong_nil : rolesAmong [] = 0 := rfl

@[simp]
theorem rolesAmong_cons_type {name : String} {rest : List Mention} :
    rolesAmong (.type name :: rest) = rolesAmong rest := rfl

@[simp]
theorem rolesAmong_cons_role {definition : RoleDefinition} {rest : List Mention} :
    rolesAmong (.role definition :: rest) = definition ::ₘ rolesAmong rest := rfl

@[simp]
theorem rolesAmong_append {a b : List Mention} :
    rolesAmong (a ++ b) = rolesAmong a + rolesAmong b := by
  simp [rolesAmong]

namespace Walk

theorem traversed_descending : ∀ {roles : List Role} {next : Walk},
    (descending roles next).traversed =
      next.traversed + rolesAmong (mentionedInRoles next.type roles)
  | [], _ => by simp [descending, mentionedInRoles]
  | role :: rest, next => by
    have hsingle : (ofType role.target).successor role.name next =
        ⟨role.target, [⟨.successor, role.name, next⟩], []⟩ := rfl
    have ih := @traversed_descending rest ((ofType role.target).successor role.name next)
    rw [descending, List.foldl_cons]
    refine ih.trans ?_
    simp only [hsingle, traversed_single, Step.definition, mentionedInRoles, rolesAmong_cons_type,
      rolesAmong_cons_role]
    rw [Multiset.cons_add, Multiset.add_cons]

theorem traversed_ascending : ∀ {roles : List Role} {type : String} {next : Walk},
    next.type = endType type roles → (ascending type roles next).traversed =
      rolesAmong (mentionedInRoles type roles) + next.traversed
  | [], _, _, _ => by simp [ascending, mentionedInRoles]
  | role :: rest, type, next, hn => by
    rw [endType_cons] at hn
    have hsingle : ascending type (role :: rest) next =
        ⟨type, [⟨.predecessor, role.name, ascending role.target rest next⟩], []⟩ := rfl
    rw [hsingle, traversed_single, traversed_ascending hn, mentionedInRoles, rolesAmong_cons_type,
      rolesAmong_cons_role, Multiset.cons_add, Step.definition, type_ascending hn]

end Walk

/-- **The chain of a path condition goes through the roles of the condition.** -/
theorem PathCondition.traversed_chain {scope : Scope} {unknown : Label} {path : PathCondition}
    {type : String} {next : Walk} (ht : scope.type? path.labelRight = some type)
    (hn : next.type = unknown.type)
    (he : endType unknown.type path.rolesLeft = endType type path.rolesRight) :
    (path.chain type next).traversed =
      next.traversed + rolesAmong (path.mentions scope unknown) := by
  rw [chain, Walk.traversed_ascending (by rw [Walk.type_descending, hn, he]),
    Walk.traversed_descending, hn, PathCondition.mentions, ht, rolesAmong_append]
  abel

/-! ### Roles that continue from labels -/

namespace Continuations

/-- The roles that the walk from a label goes through. -/
def traversed (walks : Continuations) (label : String) : Multiset RoleDefinition :=
  ((walks.walk? label).map Walk.traversed).getD 0

variable {walks : Continuations} {label name : String} {walk : Walk}

theorem traversed_of_walk? (h : walks.walk? label = some walk) :
    walks.traversed label = walk.traversed := by
  simp [traversed, h]

theorem traversed_getD (type : String) :
    ((walks.walk? label).getD (Walk.ofType type)).traversed = walks.traversed label := by
  unfold traversed
  rcases walks.walk? label with _ | walk
  · exact Walk.traversed_ofType
  · rfl

theorem traversed_without_of_ne (h : name ≠ label) :
    (walks.without label).traversed name = walks.traversed name := by
  rw [traversed, walk?_without, if_neg h]
  rfl

end Continuations

/-- A path condition adds the roles of its chain to those that continue from its label. -/
theorem PathCondition.traversed_of_lead {scope : Scope} {path : PathCondition} {next : Walk}
    {walks walks' : Continuations} (h : path.lead scope next walks = .ok walks') :
    ∃ type, scope.type? path.labelRight = some type ∧ ∀ label, walks'.traversed label =
      (if label = path.labelRight then (path.chain type next).traversed else 0) +
        walks.traversed label := by
  obtain ⟨type, merged, ht, hm, rfl⟩ := PathCondition.exists_merged_of_lead h
  refine ⟨type, ht, fun label => ?_⟩
  rw [Continuations.traversed, Continuations.walk?_insert]
  split_ifs with hl
  · subst hl
    rcases hm with ⟨hnone, rfl⟩ | ⟨other, ho, hm⟩
    · simp [Continuations.traversed, hnone]
    · rw [Continuations.traversed_of_walk? ho, ← Walk.traversed_merge hm]
      rfl
  · rw [zero_add]
    rfl

end FactGraph
