import FactGraph.Proofs.Distribution.Replacement
import FactGraph.Proofs.Mirrors

/-! # Sets of rules

An engine with rules comes to the summary of what its rules come to one by one: a permit if there
is one among them, and otherwise the first of the deepest denials. Whether the summary permits, and
how deep it denies, depends on the set of these assessments only; the reason of a denial depends on
their order, too.

* `Assessment.summarize_eq_deny_iff`: which denial a summary gives.
* `Assessment.depth?_summarize_of_mirrors`: what a summary of equally deep assessments gives.
* `DistributionEngine.verdict_of_rules`: the verdict of an engine as a law about its rules. -/

namespace FactGraph

/-! ### Summaries -/

namespace Assessment

/-- How deep a denial was found. A permit has no depth. -/
def depth? : Assessment → Option Nat
  | permit => none
  | deny _ depth => some depth

/-- A denial is the first of the deepest ones among some assessments, none of which permits. -/
def FirstDeepest (as : List Assessment) (reason : String) (depth : Nat) : Prop :=
  ∃ before behind, as = before ++ deny reason depth :: behind ∧
    (∀ a ∈ before, ∃ reason' depth', a = deny reason' depth' ∧ depth' < depth) ∧
    ∀ a ∈ behind, ∃ reason' depth', a = deny reason' depth' ∧ depth' ≤ depth

variable {as bs : List Assessment} {reason reason' : String} {depth depth' : Nat}

theorem FirstDeepest.singleton (reason : String) (depth : Nat) :
    FirstDeepest [deny reason depth] reason depth :=
  ⟨[], [], rfl, by simp, by simp⟩

theorem FirstDeepest.mem (h : FirstDeepest as reason depth) : deny reason depth ∈ as := by
  obtain ⟨before, behind, rfl, -, -⟩ := h
  simp

theorem FirstDeepest.le (h : FirstDeepest as reason depth) :
    ∀ a ∈ as, ∃ reason' depth', a = deny reason' depth' ∧ depth' ≤ depth := by
  obtain ⟨before, behind, rfl, hbefore, hbehind⟩ := h
  intro a hm
  rcases List.mem_append.mp hm with hm | hm
  · obtain ⟨reason', depth', ha, hlt⟩ := hbefore a hm
    exact ⟨reason', depth', ha, Nat.le_of_lt hlt⟩
  · rcases List.mem_cons.mp hm with rfl | hm
    · exact ⟨reason, depth, rfl, Nat.le_refl depth⟩
    · exact hbehind a hm

/-- The preferred one of the first deepest denial so far and another denial is the first deepest
one behind it. -/
theorem FirstDeepest.prefer (h : FirstDeepest as reason depth) (reason' : String) (depth' : Nat) :
    ∃ reason'' depth'', Assessment.prefer (deny reason depth) (deny reason' depth') =
        deny reason'' depth'' ∧ FirstDeepest (as ++ [deny reason' depth']) reason'' depth'' := by
  rw [Assessment.prefer]
  split_ifs with hlt
  · refine ⟨reason', depth', rfl, as, [], rfl, fun a hm => ?_, by simp⟩
    obtain ⟨_, _, ha, hle⟩ := h.le a hm
    exact ⟨_, _, ha, Nat.lt_of_le_of_lt hle hlt⟩
  · obtain ⟨before, behind, rfl, hbefore, hbehind⟩ := h
    refine ⟨reason, depth, rfl, before, behind ++ [deny reason' depth'], by simp, hbefore, ?_⟩
    intro a hm
    rcases List.mem_append.mp hm with hm | hm
    · exact hbehind a hm
    · exact ⟨reason', depth', List.mem_singleton.mp hm, Nat.not_lt.mp hlt⟩

/-- What is preferred in the end is the first of the deepest denials, if it is one at all. -/
theorem FirstDeepest.of_foldl : ∀ {rest as : List Assessment} {reason reason' : String}
    {depth depth' : Nat}, FirstDeepest as reason depth →
    rest.foldl Assessment.prefer (deny reason depth) = deny reason' depth' →
    FirstDeepest (as ++ rest) reason' depth'
  | [], as, _, _, _, _, h, hf => by
    cases hf
    rwa [List.append_nil]
  | permit :: rest, _, _, _, _, _, _, hf => by
    have hpermit := (foldl_prefer_eq_permit_iff rest permit).mpr (Or.inl rfl)
    cases hpermit.symm.trans hf
  | deny r d :: rest, as, _, _, _, _, h, hf => by
    obtain ⟨_, _, hp, hnext⟩ := h.prefer r d
    rw [List.foldl_cons, hp] at hf
    rw [List.append_cons]
    exact FirstDeepest.of_foldl hnext hf

theorem foldl_prefer_of_le : ∀ {rest : List Assessment},
    (∀ a ∈ rest, ∃ reason' depth', a = deny reason' depth' ∧ depth' ≤ depth) →
    rest.foldl Assessment.prefer (deny reason depth) = deny reason depth
  | [], _ => rfl
  | a :: rest, h => by
    obtain ⟨⟨r, d, rfl, hle⟩, hrest⟩ := List.forall_mem_cons.mp h
    rw [List.foldl_cons, Assessment.prefer, if_neg (Nat.not_lt.mpr hle), foldl_prefer_of_le hrest]

theorem FirstDeepest.of_summarize (hne : as ≠ []) (h : summarize as = deny reason depth) :
    FirstDeepest as reason depth := by
  obtain ⟨a | ⟨reason', depth'⟩, rest, rfl⟩ := List.exists_cons_of_ne_nil hne
  · have hpermit : summarize (permit :: rest) = permit :=
      summarize_eq_permit_iff.mpr List.mem_cons_self
    cases hpermit.symm.trans h
  · exact (FirstDeepest.singleton reason' depth').of_foldl h

/-- **A summary denies by the first of the deepest denials**, if none of the assessments permits. -/
theorem summarize_eq_deny_iff (hne : as ≠ []) :
    summarize as = deny reason depth ↔ FirstDeepest as reason depth := by
  refine ⟨FirstDeepest.of_summarize hne, ?_⟩
  rintro ⟨before, behind, rfl, hbefore, hbehind⟩
  rcases before with _ | ⟨a, before⟩
  · exact foldl_prefer_of_le hbehind
  · have hsplit : summarize (a :: before ++ deny reason depth :: behind) =
        behind.foldl Assessment.prefer ((summarize (a :: before)).prefer (deny reason depth)) := by
      rw [List.cons_append, summarize, List.foldl_append, List.foldl_cons, summarize]
    rcases hs : summarize (a :: before) with _ | ⟨reason', depth'⟩
    · obtain ⟨_, _, hpermit, -⟩ := hbefore _ (summarize_eq_permit_iff.mp hs)
      cases hpermit
    · -- what stands before the denial is less deep
      obtain ⟨_, _, ha, hlt⟩ :=
        hbefore _ (FirstDeepest.of_summarize (List.cons_ne_nil a before) hs).mem
      cases ha
      rw [hsplit, hs, Assessment.prefer, if_pos hlt, foldl_prefer_of_le hbehind]

theorem FirstDeepest.not_permit_mem (h : FirstDeepest as reason depth) : permit ∉ as := fun hm => by
  obtain ⟨_, _, hpermit, -⟩ := h.le _ hm
  cases hpermit

theorem FirstDeepest.le_of_mem (h : FirstDeepest as reason depth)
    (hm : deny reason' depth' ∈ as) : depth' ≤ depth := by
  obtain ⟨_, _, ha, hle⟩ := h.le _ hm
  cases ha
  exact hle

theorem depth?_eq_none_iff {a : Assessment} : a.depth? = none ↔ a = permit := by
  cases a <;> simp [depth?]

theorem depth?_eq_some_iff {a : Assessment} :
    a.depth? = some depth ↔ ∃ reason, a = deny reason depth := by
  cases a <;> simp [depth?]

/-- A denial as deep as one among some assessments is no deeper than the first deepest one. -/
theorem FirstDeepest.le_of_depth? (h : FirstDeepest bs reason depth) {b : Assessment} (hb : b ∈ bs)
    (hd : some depth' = b.depth?) : depth' ≤ depth := by
  obtain ⟨_, rfl⟩ := depth?_eq_some_iff.mp hd.symm
  exact h.le_of_mem hb

theorem FirstDeepest.depth?_ne_none (h : FirstDeepest bs reason depth) {b : Assessment}
    (hb : b ∈ bs) : none ≠ b.depth? := fun hd =>
  h.not_permit_mem (depth?_eq_none_iff.mp hd.symm ▸ hb)

/-- **Whether a summary permits, and how deep it denies, depends on which depths there are.** -/
theorem depth?_summarize_of_mirrors (h : Mirrors (fun a b => a.depth? = b.depth?) as bs) :
    (summarize as).depth? = (summarize bs).depth? := by
  by_cases hne : as = []
  · rw [hne, h.eq_nil_iff.mp hne]
  have hne' : bs ≠ [] := mt h.eq_nil_iff.mpr hne
  rcases ha : summarize as with _ | ⟨reason, depth⟩ <;>
    rcases hb : summarize bs with _ | ⟨reason', depth'⟩
  · rfl
  · obtain ⟨b, hm, hd⟩ := h.1 _ (summarize_eq_permit_iff.mp ha)
    exact absurd hd ((FirstDeepest.of_summarize hne' hb).depth?_ne_none hm)
  · obtain ⟨a, hm, hd⟩ := h.2 _ (summarize_eq_permit_iff.mp hb)
    exact absurd hd.symm ((FirstDeepest.of_summarize hne ha).depth?_ne_none hm)
  · have hdeepest := FirstDeepest.of_summarize hne ha
    have hdeepest' := FirstDeepest.of_summarize hne' hb
    obtain ⟨b, hmb, hdb⟩ := h.1 _ hdeepest.mem
    obtain ⟨a, hma, hda⟩ := h.2 _ hdeepest'.mem
    exact congrArg some (Nat.le_antisymm (hdeepest'.le_of_depth? hmb hdb)
      (hdeepest.le_of_depth? hma hda.symm))

/-- **Whether a summary permits, and how deep it denies, depends on the assessments as a set.** -/
theorem depth?_summarize_congr (h : ∀ a, a ∈ as ↔ a ∈ bs) :
    (summarize as).depth? = (summarize bs).depth? :=
  depth?_summarize_of_mirrors (.of_mem_iff (fun _ => rfl) h)

end Assessment

namespace DistributionEngine

variable {engine : DistributionEngine Id} {spec : Specification} {target : Walk}
  {start : List FactReference} {user : Option FactReference}

/-! ### What rules come to -/

/-- What an engine comes to by a single rule. -/
def ruling (engine : DistributionEngine Id) (target : Walk) (start : List FactReference)
    (user : Option FactReference) (rule : DistributionRule) : Assessment :=
  (engine.assessRule target start user rule).run

/-- A rule is for everyone, or for users that a verifier tells the present user is among. -/
theorem admits_iff {rule : DistributionRule} : engine.Admits start user rule ↔
    rule.user = none ∨ ∃ constraint present verify, rule.user = some constraint ∧
      user = some present ∧ engine.verifier = some verify ∧
      (verify constraint start present).run = true := by
  unfold Admits verified
  rcases rule.user with _ | constraint
  · simp
  · rcases user with _ | present <;> rcases engine.verifier with _ | verify <;> simp

theorem assessRules_eq_foldl : ∀ {rules : List DistributionRule} {best : Assessment},
    (engine.assessRules target start user best rules).run =
      (rules.map (engine.ruling target start user)).foldl Assessment.prefer best
  | [], best => rfl
  | rule :: rest, best => by
    rw [assessRules, List.map_cons, List.foldl_cons]
    split_ifs with hb
    · rw [Assessment.isPermit_iff] at hb
      subst hb
      exact ((Assessment.foldl_prefer_eq_permit_iff _ _).mpr
        (Or.inl (Assessment.prefer_eq_permit_iff.mpr (Or.inl rfl)))).symm
    · exact assessRules_eq_foldl

/-- **The verdict of an engine with rules is the summary of what its rules come to.** -/
theorem verdict_eq_summarize (hw : spec.walk = .ok target) (hr : engine.rules ≠ []) :
    engine.verdict spec start user =
      .ok (.summarize (engine.rules.map (engine.ruling target start user))) := by
  obtain ⟨rule, rest, hcons⟩ := List.exists_cons_of_ne_nil hr
  rw [verdict_eq_ok_iff hcons]
  refine ⟨target, hw, ?_⟩
  rw [assessRules_eq_foldl, hcons]
  rfl

/-- **The verdict of an engine as a law about its rules.** An engine with rules permits a
specification exactly if one of its rules admits the user and has a walk that permits the walk of
the specification; otherwise it denies it by the first of the deepest denials of its rules, in
their order. Other rules that are the same set permit or deny it alike, and equally deep; further
rules do not take a permit back. -/
theorem verdict_of_rules (hw : spec.walk = .ok target) (hr : engine.rules ≠ []) :
    ∃ assessment, engine.verdict spec start user = .ok assessment ∧
      (assessment = .permit ↔ ∃ rule ∈ engine.rules,
        target.assess (subject user) 0 rule.walk = .permit ∧
          (rule.user = none ∨ ∃ constraint present verify, rule.user = some constraint ∧
            user = some present ∧ engine.verifier = some verify ∧
            (verify constraint start present).run = true)) ∧
      (∀ reason depth, assessment = .deny reason depth ↔
        Assessment.FirstDeepest (engine.rules.map (engine.ruling target start user)) reason depth) ∧
      (∀ rules : DistributionRules, (∀ rule, rule ∈ rules ↔ rule ∈ engine.rules) →
        ∃ other, verdict ⟨rules, engine.verifier⟩ spec start user = .ok other ∧
          other.depth? = assessment.depth?) ∧
      ∀ rules : DistributionRules, engine.rules ⊆ rules → assessment = .permit →
        verdict ⟨rules, engine.verifier⟩ spec start user = .ok .permit := by
  have hne : engine.rules.map (engine.ruling target start user) ≠ [] := by simpa using hr
  refine ⟨_, verdict_eq_summarize hw hr, ?_, fun reason depth =>
    Assessment.summarize_eq_deny_iff hne, fun rules hsame => ?_, fun rules hsub hpermit => ?_⟩
  · rw [Assessment.summarize_eq_permit_iff, List.mem_map]
    refine exists_congr fun rule => and_congr_right fun _ => ?_
    rw [ruling, assessRule_eq_permit_iff, admits_iff, Walk.assess_eq_permit_iff, and_comm]
  · obtain ⟨rule, hrule⟩ := List.exists_mem_of_ne_nil _ hr
    have hr' : rules ≠ [] := List.ne_nil_of_mem ((hsame rule).mpr hrule)
    refine ⟨_, verdict_eq_summarize hw hr', Assessment.depth?_summarize_congr fun a => ?_⟩
    rw [List.mem_map, List.mem_map]
    exact exists_congr fun rule => and_congr_left' (hsame rule)
  · obtain ⟨rule, hrule⟩ := List.exists_mem_of_ne_nil _ hr
    rw [Assessment.summarize_eq_permit_iff] at hpermit
    rw [verdict_eq_summarize hw (List.ne_nil_of_mem (hsub hrule)), Except.ok.injEq,
      Assessment.summarize_eq_permit_iff]
    exact List.map_subset _ hsub hpermit

/-- The owner of a blog. -/
def ownerOfBlog : Specification :=
  ⟨[⟨"blog", "Blog"⟩], [⟨⟨"user", "User"⟩, [.path ⟨[], "blog", [⟨"owner", "User"⟩]⟩]⟩], []⟩

/-- The posts of a blog that have been published. -/
def publishedPostsOfBlog : Specification :=
  ⟨[⟨"blog", "Blog"⟩], [⟨⟨"post", "Post"⟩, [.path ⟨[⟨"blog", "Blog"⟩], "blog", []⟩,
    .existential true [⟨⟨"publish", "Publish"⟩, [.path ⟨[⟨"post", "Post"⟩], "post", []⟩]⟩]]⟩], []⟩

/-- All posts of a blog for its owner, and those that have been published for everyone. -/
def blogEngine : DistributionEngine Id where
  rules := [{ Walk.blogRule with
      user := some ⟨ownerOfBlog, (Walk.ofType "Blog").predecessor "owner" (Walk.ofType "User")⟩ },
    ⟨publishedPostsOfBlog, Walk.publishedPosts, none⟩]
  verifier := none

theorem verdict_of_rules_blogEngine :
    Walk.postsOfBlog.walk = .ok Walk.blogRule.walk ∧ blogEngine.rules ≠ [] ∧
      blogEngine.verdict Walk.postsOfBlog [] none = .ok (.deny ("An unauthenticated user cannot " ++
        "follow successor of Blog Post.blog unless Post has a successor Publish.post.") 1) ∧
      ∃ other, verdict ⟨blogEngine.rules.reverse, none⟩ Walk.postsOfBlog [] none = .ok other ∧
        other.depth? = some 1 := by
  have hw : Walk.postsOfBlog.walk = .ok Walk.blogRule.walk := rfl
  have hr : blogEngine.rules ≠ [] := List.cons_ne_nil _ _
  obtain ⟨assessment, hv, -, hdeny, hsame, -⟩ : ∃ assessment,
      blogEngine.verdict Walk.postsOfBlog [] none = .ok assessment ∧ _ := verdict_of_rules hw hr
  -- the rule for the owner denies at the start, so the other rule is deeper
  have hassessment := (hdeny _ 1).mpr ⟨[_], [], rfl, List.forall_mem_singleton.mpr
    ⟨_, 0, rfl, Nat.one_pos⟩, by simp⟩
  subst hassessment
  exact ⟨hw, hr, hv, hsame blogEngine.rules.reverse fun _ => List.mem_reverse⟩

end DistributionEngine

end FactGraph
