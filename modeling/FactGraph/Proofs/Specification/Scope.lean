import FactGraph.Proofs.Except
import FactGraph.Specification.Scope

/-! # What well-formed specifications satisfy

The checks of a specification, taken apart: what passes the check of a path condition, of a match
and of a list of matches. -/

namespace FactGraph

/-! ### Visible labels -/

namespace Scope

variable {scope scope' : Scope} {label : Label} {name : String}

@[simp]
theorem type?_bind_self : (scope.bind label).type? label.name = some label.type := by
  simp [type?, bind]

theorem type?_bind_of_ne (h : name ≠ label.name) :
    (scope.bind label).type? name = scope.type? name := by
  simp [type?, bind, List.lookup_cons, beq_eq_false_iff_ne.mpr h]

theorem declare_eq_ok_iff :
    scope.declare label = .ok scope' ↔ scope.type? label.name = none ∧ scope.bind label = scope' := by
  unfold declare
  rcases scope.type? label.name with _ | type <;> simp

end Scope

/-! ### Paths, conditions and matches -/

theorem endType_cons {start : String} {role : Role} {rest : List Role} :
    endType start (role :: rest) = endType role.target rest := by
  cases rest with
  | nil => rfl
  | cons other rest => simp [endType, List.getLast?_cons]

theorem PathCondition.check_eq_ok_iff {scope : Scope} {unknown : Label} {path : PathCondition} :
    path.check scope unknown = .ok () ↔ path.labelRight ≠ unknown.name ∧
      ∃ type, scope.type? path.labelRight = some type ∧
        endType unknown.type path.rolesLeft = endType type path.rolesRight := by
  unfold PathCondition.check
  split_ifs with h
  · simp [h]
  · rcases scope.type? path.labelRight with _ | type
    · simp
    · simp only [ne_eq, h, not_false_eq_true, Option.some.injEq, true_and, exists_eq_left']
      split_ifs with ht <;> simp [ht]

theorem Condition.check_existential_eq_ok_iff {scope : Scope} {unknown : Label} {holds : Bool}
    {block : List Match} : (Condition.existential holds block).check scope unknown = .ok () ↔
      ∃ inner, Match.checkAll scope block = .ok inner := by
  simp only [Condition.check, Except.bind_eq_ok_iff, Except.pure_eq_ok_iff, and_true]

theorem Condition.checkAll_eq_ok_iff {scope : Scope} {unknown : Label} :
    ∀ {conditions : List Condition}, Condition.checkAll scope unknown conditions = .ok () ↔
      ∀ condition ∈ conditions, condition.check scope unknown = .ok ()
  | [] => by simp [Condition.checkAll]
  | condition :: rest => by
    rw [Condition.checkAll, Except.bind_unit_eq_ok_iff, Condition.checkAll_eq_ok_iff,
      List.forall_mem_cons]

theorem Match.check_eq_ok_iff {scope scope' : Scope} {m : Match} : m.check scope = .ok scope' ↔
    scope.type? m.unknown.name = none ∧ m.paths.length = 1 ∧
      Condition.checkAll (scope.bind m.unknown) m.unknown m.conditions = .ok () ∧
      scope.bind m.unknown = scope' := by
  obtain ⟨unknown, conditions⟩ := m
  simp only [Match.check, Except.bind_eq_ok_iff, Scope.declare_eq_ok_iff]
  constructor
  · rintro ⟨inner, ⟨hn, rfl⟩, h⟩
    by_cases hc : (Match.paths ⟨unknown, conditions⟩).length = 1
    · simp only [hc, ne_eq, not_true_eq_false, if_false, Except.bind_eq_ok_iff,
        Except.pure_eq_ok_iff] at h
      obtain ⟨_, ha, hs⟩ := h
      exact ⟨hn, hc, ha, hs⟩
    · simp [hc, bind, Except.bind] at h
  · rintro ⟨hn, hc, ha, rfl⟩
    exact ⟨_, ⟨hn, rfl⟩, by simp [hc, ha]⟩

theorem Match.checkAll_cons_eq_ok_iff {scope scope' : Scope} {m : Match} {rest : List Match} :
    Match.checkAll scope (m :: rest) = .ok scope' ↔ scope.type? m.unknown.name = none ∧
      m.paths.length = 1 ∧
      Condition.checkAll (scope.bind m.unknown) m.unknown m.conditions = .ok () ∧
      Match.checkAll (scope.bind m.unknown) rest = .ok scope' := by
  simp only [Match.checkAll, Except.bind_eq_ok_iff, Match.check_eq_ok_iff]
  constructor
  · rintro ⟨_, ⟨hn, hc, ha, rfl⟩, h⟩
    exact ⟨hn, hc, ha, h⟩
  · rintro ⟨hn, hc, ha, h⟩
    exact ⟨_, ⟨hn, hc, ha, rfl⟩, h⟩

end FactGraph
