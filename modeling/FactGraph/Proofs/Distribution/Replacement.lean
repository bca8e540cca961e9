import FactGraph.Proofs.Distribution.Permission

/-! # Rules in the place of other rules

Coverage is a preorder of walks, and the assessments that decide it do not depend on whom and how
deep they are about. So a rule permits the specification that it was registered for, and a rule
permits whatever a narrower one does.

* `DistributionEngine.verdict_of_own_rule`: a rule permits its own specification.
* `Walk.assess_preorder`: assessments are a preorder of walks. -/

namespace FactGraph

/-! ### The rule of a specification -/

theorem DistributionRule.walk_of_make {spec : Specification} {users : Option Specification}
    {rule : DistributionRule} (h : make spec users = .ok rule) : spec.walk = .ok rule.walk := by
  have hwalk : ∀ {walk : Walk}, spec.ruleWalk = .ok walk → spec.walk = .ok walk := by
    intro walk hw
    unfold Specification.ruleWalk at hw
    rcases hs : spec.walk with e | other <;> rw [hs] at hw <;> cases hw
    rfl
  rcases users with _ | users
  · obtain ⟨walk, hw, hr⟩ := Except.bind_eq_ok_iff.mp h
    cases hr
    exact hwalk hw
  · obtain ⟨walk, hw, h⟩ := Except.bind_eq_ok_iff.mp h
    obtain ⟨userWalk, -, h⟩ := Except.bind_eq_ok_iff.mp h
    split_ifs at h
    cases h
    exact hwalk hw

/-- **A rule permits the specification that it was registered for** to the users whom it admits. -/
theorem DistributionEngine.verdict_of_own_rule {engine : DistributionEngine Id}
    {spec : Specification} {users : Option Specification} {rule : DistributionRule}
    {start : List FactReference} {user : Option FactReference}
    (hmake : DistributionRule.make spec users = .ok rule) (hm : rule ∈ engine.rules)
    (ha : engine.Admits start user rule) : engine.verdict spec start user = .ok .permit :=
  (verdict_eq_permit_iff (List.ne_nil_of_mem hm)).mpr
    ⟨rule.walk, DistributionRule.walk_of_make hmake, rule, hm, ha, Walk.CoveredBy.refl rule.walk⟩

/-! ### The preorder of assessments -/

theorem Walk.assess_self (walk : Walk) (subject : String) (depth : Nat) :
    walk.assess subject depth walk = .permit :=
  (assess_eq_permit_iff subject walk depth walk).mpr (CoveredBy.refl walk)

theorem Walk.assess_of_assess {a b c : Walk} {subject subject' : String} {depth depth' : Nat}
    (hab : a.assess subject depth b = .permit) (hbc : b.assess subject' depth' c = .permit)
    (subject'' : String) (depth'' : Nat) : a.assess subject'' depth'' c = .permit := by
  rw [assess_eq_permit_iff] at hab hbc ⊢
  exact hab.trans hbc

/-- **Assessments are a preorder of walks.** Every walk is permitted by itself, hence every
specification by a rule for it; and what is permitted by a walk is permitted by every walk that
permits that one. -/
theorem Walk.assess_preorder :
    (∀ (a : Walk) (subject : String) (depth : Nat), a.assess subject depth a = .permit) ∧
      (∀ (engine : DistributionEngine Id) (spec : Specification) (users : Option Specification)
        (rule : DistributionRule) (start : List FactReference) (user : Option FactReference),
        DistributionRule.make spec users = .ok rule → rule ∈ engine.rules →
          engine.Admits start user rule → engine.verdict spec start user = .ok .permit) ∧
      ∀ (a b c : Walk) (subject subject' subject'' : String) (depth depth' depth'' : Nat),
        a.assess subject depth b = .permit → b.assess subject' depth' c = .permit →
          a.assess subject'' depth'' c = .permit :=
  ⟨assess_self, fun _ _ _ _ _ _ hmake hm ha => DistributionEngine.verdict_of_own_rule hmake hm ha,
    fun _ _ _ _ _ subject'' _ _ depth'' hab hbc => assess_of_assess hab hbc subject'' depth''⟩

namespace Walk

/-- The posts of a blog that have been published. -/
def publishedPosts : Walk :=
  (ofType "Blog").successor "blog" ((ofType "Post").oblige
    ⟨true, ⟨.successor, "post", ofType "Publish"⟩⟩)

/-- The posts of a blog, each with what publishes it. -/
def postsWithPublish : Walk :=
  (ofType "Blog").successor "blog" ((ofType "Post").successor "post" (ofType "Publish"))

/-- The posts of a blog with what publishes them, and the owner of the blog. -/
def wholeBlog : Walk := postsWithPublish.predecessor "owner" (ofType "User")

/-- The specification of the posts of a blog. -/
def postsOfBlog : Specification :=
  ⟨[⟨"blog", "Blog"⟩], [⟨⟨"post", "Post"⟩, [.path ⟨[⟨"blog", "Blog"⟩], "blog", []⟩]⟩], []⟩

/-- The rule that permits the posts of a blog to everyone. -/
def blogRule : DistributionRule :=
  ⟨postsOfBlog, (ofType "Blog").successor "blog" (ofType "Post"), none⟩

theorem assess_preorder_wholeBlog :
    publishedPosts.assess "The user" 3 wholeBlog = .permit ∧
      (⟨[blogRule], none⟩ : DistributionEngine Id).verdict postsOfBlog [] none = .ok .permit :=
  ⟨assess_preorder.2.2 publishedPosts postsWithPublish wholeBlog "" "" _ 0 1 _ (by decide)
      (by decide),
    assess_preorder.2.1 _ postsOfBlog none blogRule _ _ rfl (List.mem_singleton_self _)
      fun _ hc => by cases hc⟩

end Walk

end FactGraph
