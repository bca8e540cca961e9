import FactGraph.Proofs.Distribution.RuleSets
import FactGraph.Proofs.Specification.Accepted
import FactGraph.Proofs.Walk.Swaps

/-! # Assessments do not depend on the order of matches

Walks that are alike are permitted by the same candidates, permit the same targets, and are denied
equally deep; only the reason of a denial may differ, which tells the first of several. So the
order of independent matches in a specification does not matter to what is permitted.

* `Walk.Alike.unmet_eq_nil_iff`: which obligations are left unmet.
* `Walk.Alike.depth?_assess`: how deep walks that are alike are denied.
* `Specification.assess_alike_of_swapped`: specifications with two matches swapped. -/

namespace FactGraph

/-! ### Coverage -/

theorem Step.Alike.coveredBy_eq {inner inner' : Step} (h : inner.Alike inner') :
    ∀ {outer outer' : Step}, outer.Alike outer' →
      inner.coveredBy outer = inner'.coveredBy outer' := by
  intro outer outer' ho
  have hsteps : (∀ s ∈ inner.next.steps, ∃ t ∈ outer.next.steps, s.coveredBy t = true) ↔
      ∀ s ∈ inner'.next.steps, ∃ t ∈ outer'.next.steps, s.coveredBy t = true :=
    h.next.steps.forall_iff fun s hs s' hss => ho.next.steps.exists_iff fun t _ t' htt => by
      rw [Step.Alike.coveredBy_eq hss htt]
  rw [Bool.eq_iff_iff, Step.coveredBy_iff, Step.coveredBy_iff, h.direction, h.role, ho.direction,
    ho.role, h.next.type_eq, ho.next.type_eq, hsteps]
termination_by sizeOf inner.next
decreasing_by exact Step.sizeOf_next_lt hs

theorem Obligation.Alike.implies_eq {imposed imposed' required required' : Obligation}
    (hi : imposed.Alike imposed') (hr : required.Alike required') :
    imposed.implies required = imposed'.implies required' := by
  rw [Obligation.implies, Obligation.implies, hi.holds, hr.holds, hr.step.coveredBy_eq hi.step,
    hi.step.coveredBy_eq hr.step]

namespace Walk.Alike

variable {target target' rule rule' walk other : Walk}

/-- **Walks that are alike leave obligations unmet for the same walks of rules.** -/
theorem unmet_eq_nil_iff (ht : target.Alike target') (hr : rule.Alike rule') :
    target.unmet rule = [] ↔ target'.unmet rule' = [] := by
  rw [Walk.unmet_eq_nil_iff, Walk.unmet_eq_nil_iff]
  exact hr.obligations.forall_iff fun required _ required' hrequired =>
    ht.obligations.exists_iff fun imposed _ imposed' himposed => by
      rw [himposed.implies_eq hrequired]

theorem examined (h : walk.Alike other) : Mirrors Step.Alike walk.examined other.examined :=
  h.steps.append (h.obligations.map fun _ _ _ ho => ho.step)

end Walk.Alike

/-! ### How deep something is denied -/

/-- The outcome of several assessments that all have to permit. -/
def Assessment.all (as : List Assessment) : Assessment :=
  match as.filter fun a => !a.isPermit with
  | [] => .permit
  | denials => .summarize denials

theorem Assessment.isPermit_eq_of_depth? {a b : Assessment} (h : a.depth? = b.depth?) :
    a.isPermit = b.isPermit := by
  rw [Bool.eq_iff_iff, isPermit_iff, isPermit_iff, ← depth?_eq_none_iff, h, depth?_eq_none_iff]

theorem Assessment.depth?_all_of_mirrors {as bs : List Assessment}
    (h : Mirrors (fun a b => a.depth? = b.depth?) as bs) : (all as).depth? = (all bs).depth? := by
  have hdenials := h.filter (p := fun a => !a.isPermit) (q := fun a => !a.isPermit)
    fun a b hab => by rw [isPermit_eq_of_depth? hab]
  unfold all
  split
  · rename_i hnil
    rw [hdenials.eq_nil_iff.mp hnil]
  · rename_i hne
    split
    · rename_i hnil
      exact absurd (hdenials.eq_nil_iff.mpr hnil) hne
    · exact depth?_summarize_of_mirrors hdenials

theorem Walk.assess_eq (subject : String) (depth : Nat) (target candidate : Walk) :
    target.assess subject depth candidate =
      if target.type = candidate.type then
        .all (target.steps.map (Step.assess subject depth depth target.type candidate.steps) ++
          target.obligations.map fun o =>
            o.step.assess subject depth (Assessment.deeper depth) target.type candidate.examined)
      else .deny (subject ++ " cannot reach " ++ target.type ++ " from a rule starting at " ++
        candidate.type ++ ".") depth := by
  obtain ⟨type, steps, obligations⟩ := target
  rw [Walk.assess, Step.assessAll_eq_map, Obligation.assessAll_eq_map]
  rfl

/-- How deep a step is denied: where it starts if no candidate goes along, behind it if all that do
leave obligations unmet, and otherwise as deep as what continues there. -/
theorem Step.depth?_assess (subject type : String) (depth missing : Nat) (candidates : List Step)
    (step : Step) : (step.assess subject depth missing type candidates).depth? =
      if step.along candidates = [] then some missing
      else if ((step.along candidates).filter fun c => (step.next.unmet c.next).isEmpty) = [] then
        some (Assessment.deeper depth)
      else (Assessment.summarize <|
        ((step.along candidates).filter fun c => (step.next.unmet c.next).isEmpty).map fun c =>
          step.next.assess subject (Assessment.deeper depth) c.next).depth? := by
  obtain ⟨direction, role, next⟩ := step
  rw [Step.assess]
  split
  · rename_i hnil
    rw [if_pos hnil]
    rfl
  · rename_i hne
    rw [if_neg hne]
    split
    · rename_i hnil
      rw [if_pos hnil]
      rfl
    · rename_i hne'
      rw [if_neg hne']

/-- Steps that are alike are denied equally deep by candidates that are alike, if what continues
behind them is. -/
theorem Step.Alike.depth?_assess {step step' : Step} {candidates candidates' : List Step}
    {subject : String} {depth missing : Nat} {type : String} (h : step.Alike step')
    (hc : Mirrors Step.Alike candidates candidates')
    (hnext : ∀ {c c' : Walk}, c.Alike c' →
      (step.next.assess subject (Assessment.deeper depth) c).depth? =
        (step'.next.assess subject (Assessment.deeper depth) c').depth?) :
    (step.assess subject depth missing type candidates).depth? =
      (step'.assess subject depth missing type candidates').depth? := by
  have halong : Mirrors Step.Alike (step.along candidates) (step'.along candidates') :=
    hc.filter fun c c' hcc => by rw [hcc.direction, hcc.role, h.direction, h.role]
  have hqualifying := halong.filter (p := fun c => (step.next.unmet c.next).isEmpty)
    (q := fun c => (step'.next.unmet c.next).isEmpty) fun c c' hcc => by
      rw [Bool.eq_iff_iff, List.isEmpty_iff, List.isEmpty_iff, h.next.unmet_eq_nil_iff hcc.next]
  rw [Step.depth?_assess, Step.depth?_assess]
  simp only [halong.eq_nil_iff, hqualifying.eq_nil_iff]
  split_ifs
  · rfl
  · rfl
  · exact Assessment.depth?_summarize_of_mirrors (hqualifying.map fun c _ c' hcc => hnext hcc.next)

/-- **Walks that are alike are permitted by candidates that are alike, or denied equally deep.** -/
theorem Walk.Alike.depth?_assess (subject : String) {target : Walk} : ∀ {target' : Walk},
    target.Alike target' → ∀ {candidate candidate' : Walk} (depth : Nat),
      candidate.Alike candidate' →
        (target.assess subject depth candidate).depth? =
          (target'.assess subject depth candidate').depth? := by
  induction target using Walk.induct with
  | h target ihs iho =>
    intro target' h candidate candidate' depth hc
    rw [Walk.assess_eq, Walk.assess_eq, h.type_eq, hc.type_eq]
    split_ifs
    · refine Assessment.depth?_all_of_mirrors (Mirrors.append ?_ ?_)
      · exact h.steps.map fun s hs s' hss =>
          hss.depth?_assess hc.steps fun hcc => ihs s hs hss.next (Assessment.deeper depth) hcc
      · exact h.obligations.map fun o ho o' hoo =>
          hoo.step.depth?_assess hc.examined fun hcc =>
            iho o ho hoo.step.next (Assessment.deeper depth) hcc
    · rfl

/-! ### Specifications -/

namespace Specification

variable {spec spec' : Specification}

/-- **The order of independent matches does not matter to what is permitted.** If two adjacent
matches of a block are swapped, and the second does not refer to the unknown of the first, then the
specification has a walk exactly if it had one before. As a target and as a candidate, against any
other walk, the two are permitted alike, or denied equally deep. -/
theorem assess_alike_of_swapped (h : spec.Accepted) (hs : spec.Swapped spec') :
    ((∃ walk, spec.walk = .ok walk) ↔ ∃ walk, spec'.walk = .ok walk) ∧
      ∀ walk walk', spec.walk = .ok walk → spec'.walk = .ok walk' →
        ∀ (other : Walk) (depth : Nat) (subject : String),
          (walk.assess subject depth other).depth? = (walk'.assess subject depth other).depth? ∧
            (other.assess subject depth walk).depth? =
              (other.assess subject depth walk').depth? := by
  have hagree := hs.agree_walk h.check
  refine ⟨hagree.succeeds_iff, fun walk walk' hw hw' other depth subject => ?_⟩
  have halike := hagree.of_ok hw hw'
  exact ⟨halike.depth?_assess subject depth (.refl other),
    (Walk.Alike.refl other).depth?_assess subject depth halike⟩

/-- The posts of a blog that have been published. -/
def publishedPost : Match :=
  ⟨⟨"post", "Post"⟩, [.path ⟨[⟨"blog", "Blog"⟩], "blog", []⟩,
    .existential true [⟨⟨"publish", "Publish"⟩, [.path ⟨[⟨"post", "Post"⟩], "post", []⟩]⟩]]⟩

/-- The owner of a blog. -/
def blogOwner : Match := ⟨⟨"user", "User"⟩, [.path ⟨[], "blog", [⟨"owner", "User"⟩]⟩]⟩

/-- Matches that start from a blog. -/
def ofBlog (block : List Match) : Specification := ⟨[⟨"blog", "Blog"⟩], block, []⟩

/-- The walk to the owner of a blog and to its published posts. -/
def ownerAndPosts : Walk :=
  ⟨"Blog", ⟨.predecessor, "owner", .ofType "User"⟩ :: Walk.publishedPosts.steps, []⟩

theorem assess_alike_of_swapped_ofBlog :
    (ofBlog [publishedPost, blogOwner]).Swapped (ofBlog [blogOwner, publishedPost]) ∧
      (ofBlog [blogOwner, publishedPost]).walk = .ok ownerAndPosts ∧
      (ownerAndPosts.assess "The user" 0 Walk.blogRule.walk).depth? = some 2 ∧
      (Walk.blogRule.walk.assess "The user" 0 ownerAndPosts).depth? = some 1 := by
  have hs : (ofBlog [publishedPost, blogOwner]).Swapped (ofBlog [blogOwner, publishedPost]) :=
    .body _ _ (.here [] rfl)
  have hw : (ofBlog [publishedPost, blogOwner]).walk =
      .ok (Walk.publishedPosts.predecessor "owner" (.ofType "User")) := rfl
  have hw' : (ofBlog [blogOwner, publishedPost]).walk = .ok ownerAndPosts := rfl
  obtain ⟨-, h⟩ := assess_alike_of_swapped (accepted_of_isPrintable rfl rfl) hs
  obtain ⟨htarget, hcandidate⟩ := h _ _ hw hw' Walk.blogRule.walk 0 "The user"
  exact ⟨hs, hw', htarget.symm.trans (by decide), hcandidate.symm.trans (by decide)⟩

end Specification

end FactGraph
