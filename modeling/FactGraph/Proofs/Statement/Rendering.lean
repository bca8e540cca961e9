import FactGraph.Proofs.Specification.RoundTrip
import FactGraph.Proofs.Statement.Connected
import FactGraph.Proofs.Plan.Order

/-! # Plans that are rendered

Not every plan of an accepted specification can be rendered. A group without edges has nothing to
select from, and what is tied to a second input only has no edge that leads there from the first.

* `Specification.exists_page_iff`: the plans that are rendered are those that are connected.
* `Specification.exists_statement_of_mem_pages`: what the pages of a specification
  are rendered from. -/

namespace FactGraph

theorem Plan.exists_page_iff_statement {plan : Plan} {bookmark : FactBookmark} {limit : Nat} :
    (∃ query, plan.page bookmark limit = .ok query) ↔
      ∃ statement, plan.statement bookmark = .ok statement := by
  constructor
  · rintro ⟨query, h⟩
    obtain ⟨statement, hs, -⟩ := Except.bind_eq_ok_iff.mp h
    exact ⟨statement, hs⟩
  · rintro ⟨statement, hs⟩
    exact ⟨_, Except.bind_eq_ok_iff.mpr ⟨statement, hs, rfl⟩⟩

namespace Specification

/-- **A plan that selects something is rendered exactly if it is connected.** -/
theorem exists_page_iff {spec : Specification} (ha : spec.Accepted) {schema : Schema}
    {start : List FactReference} {plans : List Plan} (h : spec.plans schema start = .ok plans)
    {plan : Plan} (hm : plan ∈ plans) (ho : plan.outputs ≠ []) (bookmark : FactBookmark)
    (limit : Nat) :
    (∃ query, plan.page bookmark limit = .ok query) ↔ ∃ root, plan.Connected root := by
  obtain ⟨hl, -⟩ := layout_of_mem_plans ha.check h plan hm
  obtain ⟨root, hr⟩ := hl.exists_root ho
  rw [Plan.exists_page_iff_statement, (hl.statement_succeeds ho hr bookmark).iff]
  constructor
  · exact fun hc => ⟨root, hc⟩
  · rintro ⟨other, hc⟩
    obtain rfl : root = other := Except.ok.inj (hr.symm.trans hc.root_eq)
    exact hc

/-- **Every page writes the statement of a connected plan.** -/
theorem exists_statement_of_mem_pages {spec : Specification} (hc : spec.check = .ok ())
    {schema : Schema} {start : List FactReference} {bookmarks : List FactBookmark} {limit : Nat}
    {plans : List Plan} (hp : spec.plans schema start = .ok plans) {queries : List SqlQuery}
    (h : spec.pages schema start bookmarks limit = .ok queries) :
    ∀ query ∈ queries, ∃ plan ∈ plans, ∃ root bookmark statement, plan.Connected root ∧
      plan.statement bookmark = .ok statement ∧
      plan.StatedBy (spec.inputs schema start).length root statement ∧
      query = ⟨statement.render, plan.pageParameters bookmark limit, plan.columns⟩ := by
  obtain ⟨plans', hp', hq⟩ := Except.bind_eq_ok_iff.mp h
  obtain rfl : plans = plans' := Except.ok.inj (hp.symm.trans hp')
  intro query hm
  obtain ⟨⟨plan, index⟩, hi, hpage⟩ := Plan.exists_right_of_forall₂
    ((Except.mapM_succeeds _ _).spec queries hq).flip hm
  obtain ⟨hmem, ho⟩ := List.mem_filter.mp (List.fst_mem_of_mem_zipIdx hi)
  obtain ⟨statement, hs, hquery⟩ := Except.bind_eq_ok_iff.mp hpage
  obtain ⟨hl, -⟩ := layout_of_mem_plans hc hp plan hmem
  have hne : plan.outputs ≠ [] := by simpa using ho
  obtain ⟨root, hr⟩ := hl.exists_root hne
  have hsucceeds := hl.statement_succeeds hne hr (bookmarks.getD index .start)
  exact ⟨plan, hmem, root, _, statement, hsucceeds.iff.mp ⟨_, hs⟩, hs, hsucceeds.spec _ hs,
    (Except.pure_eq_ok_iff.mp hquery).symm⟩

/-- The plan for projects that are not deleted. -/
def undeletedPlan : Plan where
  inputs := [⟨"root", 1, some 1, "r", some 1, some 2⟩]
  parameters := [.integer 1, .text "r", .integer 1, .integer 1]
  outputs := [⟨"p", "Project", 2⟩]
  facts := [⟨1, "Root"⟩, ⟨2, "Project"⟩, ⟨3, "Deleted"⟩]
  edges := [⟨1, 1, 2, 3⟩]
  groups := [⟨[⟨2, 2, 3, 4⟩], []⟩]

/-- The plan for projects that are deleted. -/
def deletedPlan : Plan :=
  { undeletedPlan with
    outputs := [⟨"p", "Project", 2⟩, ⟨"d", "Deleted", 3⟩]
    edges := [⟨1, 1, 2, 3⟩, ⟨2, 2, 3, 4⟩]
    groups := [] }

theorem plans_withoutDeletion :
    (projectsWhere false [deletion]).plans Schema.single [⟨"Root", "r"⟩] =
      .ok [deletedPlan, undeletedPlan] := by decide +kernel

theorem exists_page_undeletedPlan : ∃ query, undeletedPlan.page .start 10 = .ok query :=
  (exists_page_iff accepted_withoutDeletion plans_withoutDeletion (by simp) (by decide) _ _).mpr
    ⟨1, rfl, ⟨⟨List.cons_ne_nil _ _, trivial⟩, trivial⟩, by decide⟩

/-- The plan for projects for which nothing must not be there: its group has no edge. -/
def hollowPlan : Plan :=
  { undeletedPlan with
    parameters := [.integer 1, .text "r", .integer 1]
    facts := [⟨1, "Root"⟩, ⟨2, "Project"⟩]
    groups := [⟨[], []⟩] }

/-- **Not every plan of an accepted specification is rendered.** -/
theorem not_forall_exists_page : ¬ ∀ (spec : Specification) (schema : Schema)
    (start : List FactReference) (plans : List Plan) (plan : Plan) (bookmark : FactBookmark)
    (limit : Nat), spec.Accepted → spec.plans schema start = .ok plans → plan ∈ plans →
      plan.outputs ≠ [] → ∃ query, plan.page bookmark limit = .ok query := by
  intro h
  have hplans : (projectsWhere false []).plans Schema.single [⟨"Root", "r"⟩] =
      .ok [{ hollowPlan with groups := [] }, hollowPlan] := by decide +kernel
  obtain ⟨query, hq⟩ := h _ _ _ _ hollowPlan .start 10 (accepted_of_isPrintable rfl rfl) hplans
    (by simp) (by decide)
  have herror : hollowPlan.page .start 10 = .error .emptyGroup := by decide +kernel
  rw [herror] at hq
  cases hq

end Specification

end FactGraph
