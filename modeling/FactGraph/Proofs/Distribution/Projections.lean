import FactGraph.Proofs.Distribution.Permission
import FactGraph.Proofs.Plan.Projected
import FactGraph.Proofs.Specification.Accepted
import Mathlib

/-! # Permits and nested projections

A nested projection is compiled to plans that join the matches of its specification, of the
projections around it and of its own. Walks leave projections out, so a permit says nothing about
these joins, although the plans of the specification make them. It carries over to them, whatever the
rules, exactly if they stay within the walk of the specification itself.

* `Specification.permitCarriesOver_iff_covers`: when a permit carries over to matches.
* `Specification.permit_carries_over_iff`: when it carries over to what is joined for a nested
  projection. -/

namespace FactGraph

/-! ### Permits that carry over -/

/-- Every rule has been compiled from the specifications that it names. -/
def DistributionRules.Compiled (rules : DistributionRules) : Prop :=
  ∀ rule ∈ rules, ∃ spec user, DistributionRule.make spec user = .ok rule

namespace Specification

/-- Whoever is permitted the specification by some rules is not denied the matches. -/
def PermitCarriesOver (spec : Specification) (matches' : List Match) : Prop :=
  ∀ (engine : DistributionEngine Id) (start : List FactReference) (user : Option FactReference),
    engine.rules ≠ [] → DistributionRules.Compiled engine.rules →
      engine.verdict spec start user = .ok .permit →
        ¬ ∃ reason depth, engine.verdict (spec.joining matches') start user = .ok (.deny reason depth)

/-- The walk of the matches, if there is one, is covered by that of the specification. -/
def Covers (spec : Specification) (matches' : List Match) : Prop :=
  ∀ target joined, spec.walk = .ok target → (spec.joining matches').walk = .ok joined →
    ∀ subject depth, joined.assess subject depth target = .permit

theorem permitCarriesOver_iff_covers {spec : Specification} {matches' : List Match} :
    spec.PermitCarriesOver matches' ↔ spec.Covers matches' := by
  constructor
  · -- the rule that permits the specification to everyone denies what it does not cover
    intro h target joined hw hj subject depth
    rw [Walk.assess_eq_permit_iff]
    by_contra hn
    let engine : DistributionEngine Id := ⟨[⟨spec, target, none⟩], none⟩
    have hr : engine.rules ≠ [] := by simp [engine]
    refine h engine [] none hr ?_ ?_ ?_
    · intro rule hm
      obtain rfl := List.mem_singleton.mp hm
      refine ⟨spec, none, ?_⟩
      simp only [DistributionRule.make, DistributionRule.everyone, ruleWalk, hw]
      rfl
    · exact (DistributionEngine.verdict_eq_permit_iff hr).mpr
        ⟨target, hw, _, List.mem_singleton_self _, by simp [DistributionEngine.Admits],
          Walk.CoveredBy.refl target⟩
    · refine (DistributionEngine.verdict_eq_deny_iff hr).mpr ⟨joined, hj, fun rule hm _ => ?_⟩
      obtain rfl := List.mem_singleton.mp hm
      exact hn
  · -- a rule that covers the specification covers what that covers
    intro h engine start user hr _ hp hd
    obtain ⟨target, hw, rule, hm, ha, hc⟩ := (DistributionEngine.verdict_eq_permit_iff hr).mp hp
    obtain ⟨joined, hj, hn⟩ := (DistributionEngine.verdict_eq_deny_iff hr).mp hd
    have hcov := (Walk.assess_eq_permit_iff "" joined 0 target).mp (h target joined hw hj "" 0)
    exact hn rule hm ha (hcov.trans hc)

/-- **A permit carries over to what is joined for a nested projection exactly if the walk of the
specification covers it.** These are the matches that the plans of the specification join, and
besides its own ones there are no others. -/
theorem permit_carries_over_iff (spec : Specification) :
    (∀ joined ∈ spec.joins,
      spec.Compiles joined ∧ (spec.PermitCarriesOver joined ↔ spec.Covers joined)) ∧
    ∀ schema start plans, spec.plans schema start = .ok plans → ∀ plan ∈ plans,
      ∃ block ∈ spec.body :: spec.joins, ∃ own,
        (spec.joining block).plans schema start = .ok own ∧
          plan.unnamed ∈ own.map Plan.unnamed :=
  ⟨fun joined hm => ⟨(performs_plans spec).1 joined (List.mem_cons_of_mem _ hm),
    permitCarriesOver_iff_covers⟩, (performs_plans spec).2⟩

/-- The projects of a root, each with all projects of the root as its peers. -/
def projectsWithPeers : Specification :=
  ⟨[⟨"root", "Root"⟩], [⟨⟨"project", "Project"⟩, [.path ⟨[⟨"root", "Root"⟩], "root", []⟩]⟩],
    [.nested "peers" [⟨⟨"peer", "Project"⟩, [.path ⟨[⟨"root", "Root"⟩], "root", []⟩]⟩] []]⟩

/-- A catalog of roots and their projects. -/
def rootSchema : Schema :=
  Catalog.schema ⟨[("Root", 1), ("Project", 2)], [(2, [("root", 1)])]⟩

theorem permit_carries_over_projectsWithPeers :
    ∃ joined ∈ projectsWithPeers.joins, projectsWithPeers.PermitCarriesOver joined ∧
      ∃ plan own, projectsWithPeers.plans rootSchema [⟨"Root", "r"⟩] = .ok plan ∧ plan.length = 2 ∧
        (projectsWithPeers.joining joined).plans rootSchema [⟨"Root", "r"⟩] = .ok own ∧
          (own.map Plan.unnamed).Sublist (plan.map Plan.unnamed) := by
  obtain ⟨hjoins, -⟩ := permit_carries_over_iff projectsWithPeers
  obtain ⟨hcompiles, hiff⟩ := hjoins _ (List.mem_singleton_self _)
  obtain ⟨own, hown, hsub⟩ := hcompiles rootSchema [⟨"Root", "r"⟩] _ rfl
  refine ⟨_, List.mem_singleton_self _, hiff.mpr fun target joined hw hj subject depth => ?_, _, own,
    rfl, rfl, hown, hsub⟩
  cases hw
  cases hj
  rfl

/-- The projects of a root, each with its names. -/
def projectsWithNames : Specification :=
  ⟨[⟨"root", "Root"⟩], [⟨⟨"project", "Project"⟩, [.path ⟨[⟨"root", "Root"⟩], "root", []⟩]⟩],
    [.nested "names" [⟨⟨"name", "Name"⟩, [.path ⟨[⟨"project", "Project"⟩], "project", []⟩]⟩] []]⟩

theorem accepted_projectsWithNames : projectsWithNames.Accepted :=
  ⟨"(root: Root) \x7b project: Project [ project->root: Root = root ] \x7d => \x7b names \x7b " ++
    "name: Name [ name->project: Project = project ] \x7d \x7d", by cbv⟩

/-- **Not every permit carries over to what the nested projections join.** -/
theorem not_forall_permit_carries_over : ¬ ∀ (spec : Specification) (given : Label),
    spec.Accepted → spec.given = [given] → ∀ joined ∈ spec.joins, spec.PermitCarriesOver joined := by
  intro h
  have hcarry := h _ _ accepted_projectsWithNames rfl _ (List.mem_singleton_self _)
  have hcovers := permitCarriesOver_iff_covers.mp hcarry _ _ rfl rfl "" 0
  exact absurd hcovers (by decide)

end Specification

end FactGraph
