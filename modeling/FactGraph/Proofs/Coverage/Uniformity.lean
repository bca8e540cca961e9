import FactGraph.Proofs.Coverage.Order

/-! # What an assessment owes to its subject and its depth

The subject of an assessment stands at the beginning of the reason of a denial, and the depth is the
one from which denials are counted. Which denial is chosen does not hang on either: a target that is
denied is denied as many levels below the depth, with the rest of the reason the same, wherever the
assessment starts and whatever it speaks of. It is denied on the target, so no more levels below
than its height, and never for want of anything to assess.

* `Assessment.Uniform.summarize`, `Assessment.Uniform.overrule`: summaries are uniform if what they
  summarize is.
* `Step.uniform_assess`: from uniform assessments of what is behind a step to those of the step.
* `Walk.assess_uniform`: **an assessment is uniform in the subject and the depth.** -/

namespace FactGraph

/-! ### The height of a walk -/

mutual

/-- The length of the longest chain of steps and steps of obligations. -/
def Walk.height : Walk → Nat
  | ⟨_, steps, obligations⟩ => max (Step.highest steps) (Obligation.highest obligations)

/-- The length of the longest chain that starts with one of some steps. -/
def Step.highest : List Step → Nat
  | [] => 0
  | ⟨_, _, next⟩ :: rest => max (next.height + 1) (Step.highest rest)

/-- The length of the longest chain that starts with the step of one of some obligations. -/
def Obligation.highest : List Obligation → Nat
  | [] => 0
  | ⟨_, _, _, next⟩ :: rest => max (next.height + 1) (Obligation.highest rest)

end

theorem Step.height_next_lt_highest {step : Step} : ∀ {steps : List Step}, step ∈ steps →
    step.next.height < Step.highest steps
  | ⟨direction, role, next⟩ :: rest, h => by
    rw [Step.highest]
    rcases List.mem_cons.mp h with rfl | h
    · exact Nat.lt_of_lt_of_le (Nat.lt_succ_self _) (Nat.le_max_left _ _)
    · exact Nat.lt_of_lt_of_le (Step.height_next_lt_highest h) (Nat.le_max_right _ _)

theorem Obligation.height_next_lt_highest {o : Obligation} : ∀ {obligations : List Obligation},
    o ∈ obligations → o.step.next.height < Obligation.highest obligations
  | ⟨holds, direction, role, next⟩ :: rest, h => by
    rw [Obligation.highest]
    rcases List.mem_cons.mp h with rfl | h
    · exact Nat.lt_of_lt_of_le (Nat.lt_succ_self _) (Nat.le_max_left _ _)
    · exact Nat.lt_of_lt_of_le (Obligation.height_next_lt_highest h) (Nat.le_max_right _ _)

theorem Step.height_next_lt {walk : Walk} {step : Step} (h : step ∈ walk.steps) :
    step.next.height < walk.height := by
  obtain ⟨type, steps, obligations⟩ := walk
  rw [Walk.height]
  exact Nat.lt_of_lt_of_le (Step.height_next_lt_highest h) (Nat.le_max_left _ _)

theorem Obligation.height_next_lt {walk : Walk} {o : Obligation} (h : o ∈ walk.obligations) :
    o.step.next.height < walk.height := by
  obtain ⟨type, steps, obligations⟩ := walk
  rw [Walk.height]
  exact Nat.lt_of_lt_of_le (Obligation.height_next_lt_highest h) (Nat.le_max_right _ _)

/-! ### Uniform assessments -/

namespace Assessment

theorem deeper_of_lt {depth : Nat} (h : depth + 1 < UInt64.size) : deeper depth = depth + 1 :=
  Nat.mod_eq_of_lt h

/-- **Uniformity.** Of any subject and from any depth the outcome is to permit; or it is to deny, not
for want of a rule, and as many levels below the depth with the same said of the subject, as long as
depths do not wrap around within some height. -/
def Uniform (height : Nat) (assess : String → Nat → Assessment) : Prop :=
  (∀ subject depth, assess subject depth = .permit) ∨
  (∀ subject depth, ∃ rest found, assess subject depth = .deny (subject ++ rest) found ∧
    subject ++ rest ≠ "No distribution rule applies.") ∧
  ∃ rest below, below ≤ height ∧ ∀ subject depth, depth + height < UInt64.size →
    assess subject depth = .deny (subject ++ rest) (depth + below)

variable {height bound : Nat} {assess other : String → Nat → Assessment}
  {assessments : List (String → Nat → Assessment)}

namespace Uniform

theorem permit : Uniform height fun _ _ => .permit := Or.inl fun _ _ => rfl

/-- A denial with a `c` in its reason, as in "cannot", is not the one for want of a rule. -/
theorem deny {rest : String} {found : Nat → Nat} {below : Nat} (hb : below ≤ height)
    (hf : ∀ depth, depth + height < UInt64.size → found depth = depth + below)
    (hc : 'c' ∈ rest.toList) :
    Uniform height fun subject depth => .deny (subject ++ rest) (found depth) := by
  refine Or.inr ⟨fun subject depth => ⟨rest, found depth, rfl, fun he => ?_⟩, rest, below, hb,
    fun subject depth hd => congrArg (Assessment.deny _) (hf depth hd)⟩
  have hmem : 'c' ∈ (subject ++ rest).toList := by
    rw [String.toList_append]
    exact List.mem_append_right _ hc
  rw [he] at hmem
  revert hmem
  decide

theorem deeper (h : Uniform height assess) (hb : height < bound) :
    Uniform bound fun subject depth => assess subject (Assessment.deeper depth) := by
  rcases h with h | ⟨hdeny, rest, below, hbelow, h⟩
  · exact Or.inl fun subject depth => h subject (Assessment.deeper depth)
  · refine Or.inr ⟨fun subject depth => hdeny subject (Assessment.deeper depth), rest, below + 1,
      by omega, fun subject depth hd => ?_⟩
    simp only [deeper_of_lt (show depth + 1 < UInt64.size by omega),
      h subject (depth + 1) (by omega), Nat.add_right_comm depth 1 below, ← Nat.add_assoc]

theorem congr (h : Uniform height assess) (he : ∀ subject depth,
    other subject depth = assess subject depth) : Uniform height other := by
  obtain rfl : other = assess := funext fun subject => funext fun depth => he subject depth
  exact h

/-- **The same one of two uniform assessments is preferred everywhere.** -/
theorem prefer (h : Uniform height assess) (h' : Uniform height other) :
    Uniform height fun subject depth => (assess subject depth).prefer (other subject depth) := by
  rcases h with h | ⟨hdeny, rest, below, hb, h⟩
  · exact permit.congr fun subject depth => by rw [h, Assessment.prefer]
  rcases h' with h' | ⟨hdeny', rest', below', hb', h'⟩
  · exact permit.congr fun subject depth => prefer_eq_permit_iff.mpr (Or.inr (h' subject depth))
  refine Or.inr ⟨fun subject depth => ?_, ?_⟩
  · obtain ⟨rest, found, he, hne⟩ := hdeny subject depth
    obtain ⟨rest', found', he', hne'⟩ := hdeny' subject depth
    simp only [he, he', Assessment.prefer]
    split_ifs
    · exact ⟨rest', found', rfl, hne'⟩
    · exact ⟨rest, found, rfl, hne⟩
  -- where nothing wraps around, the deeper denial is so from every depth
  · have hprefer : ∀ subject depth, depth + height < UInt64.size →
        (assess subject depth).prefer (other subject depth) =
          if below < below' then .deny (subject ++ rest') (depth + below')
          else .deny (subject ++ rest) (depth + below) := by
      intro subject depth hd
      rw [h subject depth hd, h' subject depth hd, Assessment.prefer]
      exact if_congr (by omega) rfl rfl
    by_cases hlt : below < below'
    · exact ⟨rest', below', hb', fun subject depth hd =>
        (hprefer subject depth hd).trans (if_pos hlt)⟩
    · exact ⟨rest, below, hb, fun subject depth hd =>
        (hprefer subject depth hd).trans (if_neg hlt)⟩

theorem foldl_prefer : ∀ {assessments : List (String → Nat → Assessment)}
    {assess : String → Nat → Assessment}, Uniform height assess →
    (∀ other ∈ assessments, Uniform height other) → Uniform height fun subject depth =>
      (assessments.map fun other => other subject depth).foldl Assessment.prefer
        (assess subject depth)
  | [], _, h, _ => h
  | first :: _, _, h, hall =>
    (h.prefer (hall first List.mem_cons_self)).foldl_prefer
      fun other hm => hall other (List.mem_cons_of_mem first hm)

theorem summarize (hne : assessments ≠ []) (h : ∀ assess ∈ assessments, Uniform height assess) :
    Uniform height fun subject depth =>
      Assessment.summarize (assessments.map fun assess => assess subject depth) := by
  obtain ⟨first, rest, rfl⟩ := List.exists_cons_of_ne_nil hne
  exact (h first List.mem_cons_self).foldl_prefer
    fun other hm => h other (List.mem_cons_of_mem first hm)

/-- Uniform assessments permit of every subject and from every depth, or of none and from none. -/
theorem isPermit_eq (h : Uniform height assess) (subject : String) (depth : Nat) :
    (assess subject depth).isPermit = (assess "" 0).isPermit := by
  rcases h with h | ⟨h, -⟩
  · rw [h, h]
  · obtain ⟨_, _, he, -⟩ := h subject depth
    obtain ⟨_, _, he', -⟩ := h "" 0
    rw [he, he', isPermit, isPermit]

end Uniform

/-- The outcome where everything has to be permitted. -/
def overrule (assessments : List Assessment) : Assessment :=
  match assessments.filter fun assessment => !assessment.isPermit with
  | [] => .permit
  | denials => .summarize denials

/-- **The denials among uniform assessments are the same ones everywhere.** -/
theorem Uniform.overrule (h : ∀ assess ∈ assessments, Uniform height assess) :
    Uniform height fun subject depth =>
      overrule (assessments.map fun assess => assess subject depth) := by
  set denials := assessments.filter fun assess => !(assess "" 0).isPermit with hdenials
  have hfilter : ∀ subject depth,
      ((assessments.map fun assess => assess subject depth).filter fun a => !a.isPermit) =
        denials.map fun assess => assess subject depth := by
    intro subject depth
    rw [List.filter_map, hdenials]
    congr 1
    exact List.filter_congr fun assess hm => by
      rw [Function.comp_apply, (h assess hm).isPermit_eq]
  by_cases hne : denials = []
  · refine permit.congr fun subject depth => ?_
    rw [Assessment.overrule, hfilter, hne, List.map_nil]
  · have hall : ∀ assess ∈ denials, Uniform height assess :=
      fun assess hm => h assess (List.mem_filter.mp hm).1
    refine (summarize hne hall).congr fun subject depth => ?_
    rw [Assessment.overrule, hfilter]
    obtain ⟨first, rest, hcons⟩ := List.exists_cons_of_ne_nil hne
    rw [hcons, List.map_cons]

end Assessment

/-! ### Steps and walks -/

theorem Step.cannotFollow_eq (subject type : String) (step : Step) :
    step.cannotFollow subject type = subject ++ step.cannotFollow "" type := by
  simp only [Step.cannotFollow, String.append_assoc, String.empty_append]

theorem Step.mem_cannotFollow (type : String) (step : Step) :
    'c' ∈ (step.cannotFollow "" type).toList := by
  simp [Step.cannotFollow]

namespace Step

/-- The candidates through the role of a step that demand nothing more of the fact behind it. -/
def qualifying (step : Step) (candidates : List Step) : List Step :=
  (step.along candidates).filter fun candidate => (step.next.unmet candidate.next).isEmpty

/-- What a fact behind a step would have to satisfy, for each of the candidates in words. -/
def exceptions (step : Step) (candidates : List Step) : String :=
  ", or ".intercalate
    ((step.along candidates).map fun candidate => step.next.describeUnmet candidate.next)

variable {subject type : String} {depth missing : Nat} {step : Step} {candidates : List Step}

theorem assess_of_along_eq_nil (h : step.along candidates = []) :
    step.assess subject depth missing type candidates =
      .deny (step.cannotFollow subject type ++ ".") missing := by
  obtain ⟨direction, role, next⟩ := step
  rw [Step.assess, h]

theorem assess_of_qualifying_eq_nil (h : step.along candidates ≠ [])
    (hq : step.qualifying candidates = []) :
    step.assess subject depth missing type candidates =
      .deny (step.cannotFollow subject type ++ " unless " ++ step.exceptions candidates ++ ".")
        (Assessment.deeper depth) := by
  obtain ⟨direction, role, next⟩ := step
  rw [Step.assess]
  split
  · exact absurd ‹_› h
  · split
    · rfl
    · exact absurd hq ‹_›

theorem assess_of_qualifying (hq : step.qualifying candidates ≠ []) :
    step.assess subject depth missing type candidates =
      .summarize ((step.qualifying candidates).map fun candidate =>
        step.next.assess subject (Assessment.deeper depth) candidate.next) := by
  obtain ⟨direction, role, next⟩ := step
  rw [Step.assess]
  split
  · rename_i hnone
    exact absurd (by rw [qualifying, hnone]; rfl) hq
  · split
    · exact absurd ‹_› hq
    · rfl

/-- **Steps.** A step is denied at the depth or one level below, or as what is behind it is. -/
theorem uniform_assess {height levels : Nat} {missing : Nat → Nat} (type : String)
    (candidates : List Step) (hl : levels ≤ 1) (hh : step.next.height < height)
    (hm : ∀ depth, depth + height < UInt64.size → missing depth = depth + levels)
    (h : ∀ candidate, Assessment.Uniform step.next.height fun subject depth =>
      step.next.assess subject depth candidate) :
    Assessment.Uniform height fun subject depth =>
      step.assess subject depth (missing depth) type candidates := by
  have hreason : ∀ tail : String, 'c' ∈ (step.cannotFollow "" type ++ tail).toList := by
    intro tail
    rw [String.toList_append]
    exact List.mem_append_left _ (step.mem_cannotFollow type)
  by_cases halong : step.along candidates = []
  · refine (Assessment.Uniform.deny (by omega : levels ≤ height) hm (hreason ".")).congr
      fun subject depth => ?_
    rw [assess_of_along_eq_nil halong, cannotFollow_eq, String.append_assoc]
  by_cases hqualifying : step.qualifying candidates = []
  · refine (Assessment.Uniform.deny (by omega : 1 ≤ height)
      (fun depth hd => Assessment.deeper_of_lt (by omega))
      (hreason (" unless " ++ (step.exceptions candidates ++ ".")))).congr fun subject depth => ?_
    rw [assess_of_qualifying_eq_nil halong hqualifying, cannotFollow_eq]
    simp only [String.append_assoc]
  · set views : List (String → Nat → Assessment) := (step.qualifying candidates).map
      fun candidate subject depth =>
        step.next.assess subject (Assessment.deeper depth) candidate.next with hviews
    have hall : ∀ assess ∈ views, Assessment.Uniform height assess :=
      List.forall_mem_map.mpr fun candidate _ => (h candidate.next).deeper hh
    have hne : views ≠ [] := by simpa [hviews] using hqualifying
    refine (Assessment.Uniform.summarize hne hall).congr fun subject depth => ?_
    rw [assess_of_qualifying hqualifying, hviews, List.map_map]
    rfl

end Step

theorem Walk.assess_eq_overrule {target candidate : Walk} (subject : String) (depth : Nat)
    (ht : target.type = candidate.type) : target.assess subject depth candidate =
      .overrule (target.steps.map (fun step =>
          step.assess subject depth depth target.type candidate.steps) ++
        target.obligations.map fun o =>
          o.step.assess subject depth (Assessment.deeper depth) target.type
            candidate.examined) := by
  obtain ⟨type, steps, obligations⟩ := target
  rw [Walk.assess, if_pos ht, Step.assessAll_eq_map, Obligation.assessAll_eq_map]
  rfl

theorem Walk.uniform_assess (target : Walk) : ∀ candidate : Walk,
    Assessment.Uniform target.height fun subject depth =>
      target.assess subject depth candidate := by
  induction target using Walk.induct with
  | h walk ihs iho =>
    intro candidate
    by_cases ht : walk.type = candidate.type
    · set views : List (String → Nat → Assessment) :=
        walk.steps.map (fun step subject depth =>
          step.assess subject depth depth walk.type candidate.steps) ++
        walk.obligations.map fun o subject depth =>
          o.step.assess subject depth (Assessment.deeper depth) walk.type
            candidate.examined with hviews
      have hall : ∀ assess ∈ views, Assessment.Uniform walk.height assess := by
        intro assess hm
        rcases List.mem_append.mp hm with hm | hm
        · obtain ⟨step, hs, rfl⟩ := List.mem_map.mp hm
          exact step.uniform_assess _ _ (Nat.zero_le 1) (Step.height_next_lt hs)
            (fun depth _ => (Nat.add_zero depth).symm) (ihs step hs)
        · obtain ⟨o, ho, rfl⟩ := List.mem_map.mp hm
          have hheight := Obligation.height_next_lt ho
          exact o.step.uniform_assess _ _ (Nat.le_refl 1) hheight
            (fun depth hd => Assessment.deeper_of_lt (by omega)) (iho o ho)
      refine (Assessment.Uniform.overrule hall).congr fun subject depth => ?_
      rw [walk.assess_eq_overrule subject depth ht, hviews, List.map_append, List.map_map,
        List.map_map]
      rfl
    · obtain ⟨type, steps, obligations⟩ := walk
      have hc : 'c' ∈ (" cannot reach " ++ (type ++ (" from a rule starting at " ++
          (candidate.type ++ ".")))).toList := by simp
      refine (Assessment.Uniform.deny (Nat.zero_le _)
        (fun depth _ => (Nat.add_zero depth).symm) hc).congr fun subject depth => ?_
      rw [Walk.assess, if_neg ht]
      simp only [String.append_assoc]

/-- **An assessment is uniform in the subject and the depth.** A target is permitted of every
subject and from every depth; or it is denied of every subject and from every depth, never for the
want of a rule, and as long as depths do not wrap around within its height, always the same number of
levels below the depth, which is at most its height, and for the same reason but for the subject at
its beginning. -/
theorem Walk.assess_uniform (target candidate : Walk) :
    (∀ subject depth, target.assess subject depth candidate = .permit) ∨
    (∀ subject depth, ∃ rest found,
      target.assess subject depth candidate = .deny (subject ++ rest) found ∧
        subject ++ rest ≠ "No distribution rule applies.") ∧
    ∃ rest below, below ≤ target.height ∧ ∀ subject depth, depth + target.height < UInt64.size →
      target.assess subject depth candidate = .deny (subject ++ rest) (depth + below) :=
  target.uniform_assess candidate

/-- The projects of a root. -/
def rootProjects : Walk := ⟨"Root", [⟨.successor, "root", ⟨"Project", [], []⟩⟩], []⟩

/-- The projects of a root that are not deleted. -/
def keptProjects : Walk :=
  ⟨"Root", [⟨.successor, "root", ⟨"Project", [],
    [⟨false, .successor, "project", ⟨"Deleted", [], []⟩⟩]⟩⟩], []⟩

/-- What the projects of a root are denied for, behind the subject, if deleted ones are to be left
out. -/
def keptProjectsOnly : String :=
  " cannot follow successor of Root Project.root unless Project has no successor Deleted.project."

theorem Walk.assess_uniform_rootProjects :
    5 + rootProjects.height < UInt64.size ∧
      rootProjects.assess "Ada" 5 keptProjects = .deny ("Ada" ++ keptProjectsOnly) 6 := by
  have hfirst : rootProjects.assess "" 0 keptProjects = .deny keptProjectsOnly 1 := by decide
  obtain h | ⟨-, rest, below, -, h⟩ := Walk.assess_uniform rootProjects keptProjects
  · exact absurd ((h "" 0).symm.trans hfirst) (by simp)
  · have hzero := (h "" 0 (by decide)).symm.trans hfirst
    rw [String.empty_append, Nat.zero_add, Assessment.deny.injEq] at hzero
    obtain ⟨rfl, rfl⟩ := hzero
    exact ⟨by decide, h "Ada" 5 (by decide)⟩

/-- From the last depth there is, what is denied one level below is denied at depth 0. -/
theorem Walk.not_forall_assess_uniform :
    ¬ ∀ (target candidate : Walk) (depth below : Nat) (reason : String), depth < UInt64.size →
      target.assess "" 0 candidate = .deny reason below →
        target.assess "" depth candidate = .deny reason (depth + below) := by
  intro h
  have hlast := h rootProjects keptProjects (UInt64.size - 1) 1 keptProjectsOnly (by decide)
    (by decide)
  exact absurd hlast (by decide)

end FactGraph
