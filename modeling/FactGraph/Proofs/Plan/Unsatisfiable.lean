import FactGraph.Proofs.Plan.Contexts
import FactGraph.Proofs.Specification.RoundTrip

/-! # Negative conditions that always hold

A negative condition whose block ends without a plan holds, since nothing that is stored satisfies
the block. Such a condition leaves nothing behind: neither the plans that its block completes on the
way, nor what has been joined in its group. So a specification has the same plans without it,
wherever it stands.

* `Condition.join_eq_continued`: a condition whose block ends without a plan.
* `Specification.Negation.plans_eq`: the plans of a specification with such a condition. -/

namespace FactGraph

section

variable {schema : Schema} {stem : String} {path : List Nat} {joined : Joined} {block : List Match}

/-- **A negative condition whose block ends without a plan changes nothing.** -/
theorem Condition.join_eq_continued {unknown : Label} {failing : Branch}
    (hb : joined.plan.HasBranch path)
    (hj : Match.joinAll schema stem path joined block = .ok failing) (hl : failing.last = none) :
    Condition.join schema stem path unknown joined (.existential false block) =
      .ok (.continued joined) := by
  -- the block ends without a plan in its group as well
  obtain ⟨opened, inner, hg, -⟩ := Plan.exists_addGroup hb
  obtain ⟨absent, ha, hstep⟩ := Match.joinAll_inStep block (.of_addGroup hb hg) hj
  have hlast := hstep.last
  rw [hl] at hlast
  rw [Condition.join, hj]
  show (joined.plan.addGroup path >>= _) = _
  rw [hg]
  show (Match.joinAll schema stem inner ⟨opened, joined.bindings⟩ block >>= _) = _
  rw [ha]
  obtain ⟨completed, last⟩ := absent
  cases hlast with
  | none => rfl

end

namespace Specification

/-! ### Specifications with a negative condition -/

/-- A specification with a place for a negative condition: among the conditions of a match, which
stands in the hole of a context. -/
structure Negation where
  context : Context
  unknown : Label
  before : List Condition
  block : List Match
  after : List Condition

namespace Negation

variable (n : Negation)

/-- The match with the condition. -/
def stated : Match := ⟨n.unknown, n.before ++ .existential false n.block :: n.after⟩

/-- The specification with the condition. -/
def within : Specification := n.context.fill [n.stated]

/-- The specification without the condition. -/
def removed : Specification := n.context.fill [⟨n.unknown, n.before ++ n.after⟩]

/-- The compilation of the specification comes to the block of the condition, which is joined onto
the branch of a path. -/
def Reaches (schema : Schema) (start : List FactReference) (stem : String) (path : List Nat)
    (joined : Joined) : Prop :=
  ∃ outer branch, n.context.Reaches schema start [n.stated] stem path outer ∧
    Condition.joinAll schema stem path n.unknown outer n.before = .ok branch ∧
      branch.last = some joined

/-- Wherever the compilation comes to the block of the condition, the block is joined without an
error, and ends without a plan. -/
def Unsatisfiable (schema : Schema) (start : List FactReference) : Prop :=
  ∀ stem path joined, n.Reaches schema start stem path joined →
    ∃ branch, Match.joinAll schema stem path joined n.block = .ok branch ∧ branch.last = none

variable {n}

/-- **A negative condition whose block ends without a plan leaves nothing behind**: wherever it
stands, the specification has the same plans without it, or fails in the same way. -/
theorem plans_eq {schema : Schema} {start : List FactReference} (h : n.Unsatisfiable schema start) :
    n.within.plans schema start = n.removed.plans schema start := by
  refine Context.plans_congr fun stem path outer hr => congrArg (· >>= _) ?_
  refine Condition.joinAll_congr fun branch joined hj hl => ?_
  have hb : joined.plan.HasBranch path := Condition.hasBranch_of_joinAll hr.hasBranch hj hl
  obtain ⟨failing, hf, hnone⟩ := h stem path joined ⟨outer, branch, hr, hj, hl⟩
  rw [Condition.joinAll, Condition.join_eq_continued hb hf hnone]
  exact Branch.continued_andThen joined
    (Condition.joinAll schema stem path n.unknown · n.after)

/-- The projects that are not deleted, where restored ones do not count as deleted. -/
def restored : Negation where
  context := .inBody [⟨"root", "Root"⟩] (.inside ⟨"p", "Project"⟩
    [.path ⟨[⟨"root", "Root"⟩], "root", []⟩] false (.here []) [] []) []
  unknown := ⟨"d", "Deleted"⟩
  before := [.path ⟨[⟨"project", "Project"⟩], "p", []⟩]
  block := [referring "r" "Restored" "deletion" "d" "Deleted"]
  after := []

/-- A catalog that does not know restored projects. -/
def withoutRestored : Schema where
  factTypeId type := if type = "Restored" then none else some 1
  roleId _ _ := some 1

/-- Restored projects are not known wherever deletions are joined: in the plan for deleted projects,
and in the group of those that are not deleted. -/
theorem unsatisfiable_restored : restored.Unsatisfiable withoutRestored [⟨"Root", "r"⟩] := by
  let initial := Specification.initial ⟨[⟨"root", "Root"⟩], [], []⟩ withoutRestored [⟨"Root", "r"⟩]
  let projects := Condition.joinAll withoutRestored "" [] ⟨"p", "Project"⟩ initial
    [.path ⟨[⟨"root", "Root"⟩], "root", []⟩]
  let deletions (path : List Nat) (joined : Joined) :=
    Condition.joinAll withoutRestored "" path restored.unknown joined restored.before
  let ended (path : List Nat) (joined : Joined) :=
    ((Match.joinAll withoutRestored "" path joined restored.block).map Branch.last).toOption
  have hinside : ∀ first ∈ projects.toOption, ∀ next ∈ first.last,
      ∀ branch ∈ (deletions [] next).toOption, ∀ joined ∈ branch.last,
        ended [] joined = some none := by decide +kernel
  have habsent : ∀ first ∈ projects.toOption, ∀ next ∈ first.last,
      ∀ group ∈ (next.plan.addGroup []).toOption,
      ∀ branch ∈ (deletions group.2 ⟨group.1, next.bindings⟩).toOption, ∀ joined ∈ branch.last,
        ended group.2 joined = some none := by decide +kernel
  have hends {path : List Nat} {joined : Joined} (h : ended path joined = some none) :
      ∃ branch, Match.joinAll withoutRestored "" path joined restored.block = .ok branch ∧
        branch.last = none := by
    rcases hb : Match.joinAll withoutRestored "" path joined restored.block with e | branch <;>
      simp only [ended, hb] at h
    · cases h
    · exact ⟨branch, rfl, Option.some_inj.mp h⟩
  rintro stem path joined ⟨outer, branch, hr, hj, hl⟩
  cases hr with
  | inBody he hr =>
    subst he
    cases hr with
    | inside hp hnext hr =>
      cases hr
      exact hends (hinside _ (congrArg Except.toOption hp) _ hnext _
        (congrArg Except.toOption hj) _ hl)
    | absent hp hnext _ hg hr =>
      cases hr
      exact hends (habsent _ (congrArg Except.toOption hp) _ hnext _
        (congrArg Except.toOption hg) _ (congrArg Except.toOption hj) _ hl)

theorem plans_eq_restored : restored.Unsatisfiable withoutRestored [⟨"Root", "r"⟩] ∧
    restored.removed = projectsWhere false [deletion] ∧
    restored.within.plans withoutRestored [⟨"Root", "r"⟩] =
      (projectsWhere false [deletion]).plans withoutRestored [⟨"Root", "r"⟩] :=
  ⟨unsatisfiable_restored, rfl, plans_eq unsatisfiable_restored⟩

end Negation

end Specification

end FactGraph
