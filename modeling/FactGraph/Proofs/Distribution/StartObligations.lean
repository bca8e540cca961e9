import FactGraph.Proofs.Distribution.Permission
import FactGraph.Proofs.Specification.RoundTrip
import FactGraph.Proofs.Walk.Type
import Mathlib

/-! # Obligations on the start fact

A rule for everyone enforces the obligations that its walk places on the facts behind a step, since
coverage compares them there. It does not enforce those on the fact at which the walk starts: it
permits the specification that only has the given label, whatever its own walk demands of it.

* `DistributionRule.start_enforced_iff`: a rule enforces its obligations on the start fact exactly
  if it has none. -/

namespace FactGraph

namespace DistributionRule

/-- An engine with this rule alone. -/
def alone (rule : DistributionRule) (verifier : Option (UserVerifier Id)) : DistributionEngine Id :=
  ⟨[rule], verifier⟩

/-- Whatever accepted specification the rule permits when it stands alone imposes on its start fact
what the rule demands there. -/
def StartEnforced (rule : DistributionRule) : Prop :=
  ∀ (spec : Specification) (target : Walk) (verifier : Option (UserVerifier Id))
    (start : List FactReference) (user : Option FactReference),
    spec.Accepted → spec.walk = .ok target →
      (rule.alone verifier).verdict spec start user = .ok .permit → target.unmet rule.walk = []

theorem everyone_eq_ok_iff {spec : Specification} {rule : DistributionRule} :
    everyone spec = .ok rule ↔ ∃ walk, spec.walk = .ok walk ∧ ⟨spec, walk, none⟩ = rule := by
  unfold everyone Specification.ruleWalk
  rcases spec.walk with e | walk
  · simp [Except.mapError]
  · simp [Except.mapError]

theorem verdict_alone_of_everyone {spec : Specification} {rule : DistributionRule}
    (hr : everyone spec = .ok rule) {verifier : Option (UserVerifier Id)} {other : Specification}
    {start : List FactReference} {user : Option FactReference} :
    (rule.alone verifier).verdict other start user = .ok .permit ↔
      ∃ target, other.walk = .ok target ∧ target.CoveredBy rule.walk := by
  obtain ⟨walk, -, rfl⟩ := everyone_eq_ok_iff.mp hr
  rw [DistributionEngine.verdict_eq_permit_iff (by simp [alone])]
  simp [alone, DistributionEngine.Admits]

/-- **A rule for everyone enforces its obligations on the start fact exactly if it has none.** -/
theorem start_enforced_iff {spec : Specification} {rule : DistributionRule} (ha : spec.Accepted)
    (hr : everyone spec = .ok rule) : rule.StartEnforced ↔ rule.walk.obligations = [] := by
  constructor
  · intro henf
    obtain ⟨walk, hw, hrule⟩ := everyone_eq_ok_iff.mp hr
    obtain ⟨given, hg, htype⟩ := Specification.type_of_walk ha.check hw
    obtain ⟨hname, hword⟩ := ha.given.2 given (by simp [hg])
    -- the specification that only has the given label imposes nothing, and is covered
    have hplain : Specification.walk ⟨[given], [], []⟩ = .ok (Walk.ofType given.type) := rfl
    have hcov : (Walk.ofType given.type).CoveredBy rule.walk := by
      rw [← hrule]
      exact Walk.coveredBy_iff.mpr ⟨htype.symm, by simp [Walk.ofType], by simp [Walk.ofType]⟩
    have hunmet := henf _ _ none [] none (Specification.accepted_of_given hname hword) hplain
      ((verdict_alone_of_everyone hr).mpr ⟨_, hplain, hcov⟩)
    refine List.eq_nil_iff_forall_not_mem.mpr fun required hreq => ?_
    obtain ⟨imposed, himp, -⟩ := Walk.unmet_eq_nil_iff.mp hunmet required hreq
    simp [Walk.ofType] at himp
  · intro hnone spec target verifier start user _ _ _
    simp [Walk.unmet, hnone]

/-- Blogs that have a post, without matches behind them. -/
def blogsWithPosts : Specification :=
  ⟨[⟨"blog", "Blog"⟩],
    [⟨⟨"b", "Blog"⟩, [.path ⟨[], "blog", []⟩,
      .existential true [⟨⟨"p", "Post"⟩, [.path ⟨[⟨"blog", "Blog"⟩], "b", []⟩]⟩]]⟩], []⟩

theorem accepted_blogsWithPosts : blogsWithPosts.Accepted :=
  ⟨"(blog: Blog) \x7b b: Blog [ b = blog E \x7b p: Post [ p->blog: Blog = b ] \x7d ] \x7d", by cbv⟩

/-- The rule that permits blogs that have a post to everyone. -/
def postedBlogs : DistributionRule :=
  ⟨blogsWithPosts, ⟨"Blog", [], [⟨true, ⟨.successor, "blog", .ofType "Post"⟩⟩]⟩, none⟩

theorem everyone_blogsWithPosts : everyone blogsWithPosts = .ok postedBlogs := by rfl

theorem start_enforced_iff_postedBlogs : blogsWithPosts.Accepted ∧
    everyone blogsWithPosts = .ok postedBlogs ∧
    (postedBlogs.StartEnforced ↔ postedBlogs.walk.obligations = []) :=
  ⟨accepted_blogsWithPosts, everyone_blogsWithPosts,
    start_enforced_iff accepted_blogsWithPosts everyone_blogsWithPosts⟩

/-- **Not every rule for everyone enforces its obligations on the start fact.** -/
theorem not_forall_start_enforced : ¬ ∀ (spec : Specification) (rule : DistributionRule),
    spec.Accepted → everyone spec = .ok rule → rule.StartEnforced := by
  intro h
  have henf := h _ _ accepted_blogsWithPosts everyone_blogsWithPosts
  have hplain : Specification.Accepted ⟨[⟨"blog", "Blog"⟩], [], []⟩ := ⟨"(blog: Blog) \x7b \x7d", by cbv⟩
  have hunmet := henf _ (Walk.ofType "Blog") none [] none hplain rfl rfl
  exact absurd hunmet (by simp [Walk.unmet, postedBlogs, Walk.ofType])

end DistributionRule

end FactGraph
