import FactGraph.Distribution.Coverage
import Mathlib.Tactic.Common

/-! # Coverage as an order of walks

An assessment permits exactly when the candidate covers the target, whatever the subject and the
depth. `Walk.CoveredBy` says so without reasons: every step of the target follows a step of the
candidate, every step of its obligations follows a step of the candidate or of its obligations. A
step follows another one if it goes through the same role in the same direction, imposes what the
other demands of the fact behind it, and is covered from there.

* `Walk.assess_eq_permit_iff`: the assessment decides coverage.
* `Obligation.implies_refl`, `Obligation.implies_trans`: the comparison of obligations is a preorder.
* `Walk.CoveredBy.refl`, `Walk.CoveredBy.trans`: coverage is a preorder. -/

namespace FactGraph

/-! ### Induction on walks -/

theorem Step.sizeOf_next_lt {walk : Walk} {step : Step} (h : step ∈ walk.steps) :
    sizeOf step.next < sizeOf walk := by
  have hs := List.sizeOf_lt_of_mem h
  obtain ⟨type, steps, obligations⟩ := walk
  obtain ⟨direction, role, next⟩ := step
  simp only [Walk.mk.sizeOf_spec, Step.mk.sizeOf_spec] at hs ⊢
  omega

theorem Obligation.sizeOf_next_lt {walk : Walk} {o : Obligation} (h : o ∈ walk.obligations) :
    sizeOf o.step.next < sizeOf walk := by
  have hs := List.sizeOf_lt_of_mem h
  obtain ⟨type, steps, obligations⟩ := walk
  obtain ⟨holds, direction, role, next⟩ := o
  simp only [Walk.mk.sizeOf_spec, Obligation.mk.sizeOf_spec, Step.mk.sizeOf_spec] at hs ⊢
  omega

/-- What holds of a walk once it holds behind its steps and those of its obligations, holds of every
walk. -/
theorem Walk.induct {P : Walk → Prop}
    (h : ∀ walk : Walk, (∀ step ∈ walk.steps, P step.next) →
      (∀ o ∈ walk.obligations, P o.step.next) → P walk) (walk : Walk) : P walk :=
  h walk (fun step _ => Walk.induct h step.next) (fun o _ => Walk.induct h o.step.next)
termination_by sizeOf walk
decreasing_by
  · exact Step.sizeOf_next_lt ‹_›
  · exact Obligation.sizeOf_next_lt ‹_›

/-! ### Coverage without reasons -/

/-- **Coverage.** The candidate takes every step of the target, and demands of no fact on the way
what the target does not impose there. -/
def Walk.CoveredBy (target candidate : Walk) : Prop :=
  target.type = candidate.type ∧
    (∀ step ∈ target.steps, ∃ other ∈ candidate.steps, other.direction = step.direction ∧
      other.role = step.role ∧ step.next.unmet other.next = [] ∧
        step.next.CoveredBy other.next) ∧
    ∀ o ∈ target.obligations, ∃ other ∈ candidate.examined, other.direction = o.step.direction ∧
      other.role = o.step.role ∧ o.step.next.unmet other.next = [] ∧
        o.step.next.CoveredBy other.next
termination_by sizeOf target
decreasing_by
  · exact Step.sizeOf_next_lt ‹_›
  · exact Obligation.sizeOf_next_lt ‹_›

/-- A step goes where another one goes, and imposes what that one demands behind it. -/
structure Step.Follows (step other : Step) : Prop where
  direction : other.direction = step.direction
  role : other.role = step.role
  imposed : step.next.unmet other.next = []
  covered : step.next.CoveredBy other.next

theorem Walk.coveredBy_iff {target candidate : Walk} : target.CoveredBy candidate ↔
    target.type = candidate.type ∧
      (∀ step ∈ target.steps, ∃ other ∈ candidate.steps, step.Follows other) ∧
      ∀ o ∈ target.obligations, ∃ other ∈ candidate.examined, o.step.Follows other := by
  have hf : ∀ s t : Step, s.Follows t ↔ t.direction = s.direction ∧ t.role = s.role ∧
      s.next.unmet t.next = [] ∧ s.next.CoveredBy t.next :=
    fun s t => ⟨fun h => ⟨h.1, h.2, h.3, h.4⟩, fun h => ⟨h.1, h.2.1, h.2.2.1, h.2.2.2⟩⟩
  rw [Walk.CoveredBy]
  simp only [hf]

namespace Walk.CoveredBy

variable {target candidate : Walk}

theorem type_eq (h : target.CoveredBy candidate) : target.type = candidate.type :=
  (coveredBy_iff.mp h).1

theorem step (h : target.CoveredBy candidate) {s : Step} (hs : s ∈ target.steps) :
    ∃ other ∈ candidate.steps, s.Follows other := (coveredBy_iff.mp h).2.1 s hs

theorem obligation (h : target.CoveredBy candidate) {o : Obligation}
    (ho : o ∈ target.obligations) : ∃ other ∈ candidate.examined, o.step.Follows other :=
  (coveredBy_iff.mp h).2.2 o ho

end Walk.CoveredBy

/-! ### The assessment decides coverage -/

theorem Assessment.isPermit_iff {a : Assessment} : a.isPermit = true ↔ a = .permit := by
  cases a <;> simp [Assessment.isPermit]

theorem Assessment.prefer_eq_permit_iff {a b : Assessment} :
    a.prefer b = .permit ↔ a = .permit ∨ b = .permit := by
  rcases a with _ | ⟨r, d⟩ <;> rcases b with _ | ⟨r', d'⟩ <;> simp only [Assessment.prefer]
  · simp
  · simp
  · simp
  · split_ifs <;> simp

theorem Assessment.foldl_prefer_eq_permit_iff : ∀ (rest : List Assessment) (a : Assessment),
    rest.foldl Assessment.prefer a = .permit ↔ a = .permit ∨ .permit ∈ rest
  | [], a => by simp
  | b :: rest, a => by
    rw [List.foldl_cons, foldl_prefer_eq_permit_iff rest, prefer_eq_permit_iff, List.mem_cons,
      or_assoc, eq_comm (a := Assessment.permit) (b := b)]

theorem Assessment.summarize_eq_permit_iff {as : List Assessment} :
    Assessment.summarize as = .permit ↔ .permit ∈ as := by
  cases as with
  | nil => simp [Assessment.summarize, Assessment.noRule]
  | cons a rest =>
    rw [Assessment.summarize, foldl_prefer_eq_permit_iff, List.mem_cons,
      eq_comm (a := Assessment.permit) (b := a)]

theorem Step.assessAll_eq_map (subject : String) (depth missing : Nat) (type : String)
    (candidates : List Step) : ∀ steps : List Step,
      Step.assessAll subject depth missing type candidates steps =
        steps.map (Step.assess subject depth missing type candidates)
  | [] => rfl
  | step :: rest => by
    rw [Step.assessAll, Step.assessAll_eq_map subject depth missing type candidates rest,
      List.map_cons]

theorem Obligation.assessAll_eq_map (subject : String) (depth : Nat) (type : String)
    (candidates : List Step) : ∀ obligations : List Obligation,
      Obligation.assessAll subject depth type candidates obligations =
        obligations.map fun o =>
          o.step.assess subject depth (Assessment.deeper depth) type candidates
  | [] => rfl
  | ⟨_, step⟩ :: rest => by
    rw [Obligation.assessAll, Obligation.assessAll_eq_map subject depth type candidates rest,
      List.map_cons]

/-- A walk is permitted if its type is that of the candidate, and all its steps and those of its
obligations are permitted. -/
theorem Walk.assess_eq_permit {subject : String} {depth : Nat} {target candidate : Walk} :
    target.assess subject depth candidate = .permit ↔
      target.type = candidate.type ∧
        (∀ s ∈ target.steps,
          s.assess subject depth depth target.type candidate.steps = .permit) ∧
        ∀ o ∈ target.obligations,
          o.step.assess subject depth (Assessment.deeper depth) target.type candidate.examined =
            .permit := by
  obtain ⟨type, steps, obligations⟩ := target
  rw [Walk.assess]
  by_cases ht : type = candidate.type
  · rw [if_pos ht, Step.assessAll_eq_map, Obligation.assessAll_eq_map]
    set as := steps.map (Step.assess subject depth depth type candidate.steps) ++
      obligations.map fun o =>
        o.step.assess subject depth (Assessment.deeper depth) type candidate.examined
      with has
    have hall : (∀ a ∈ as, a = .permit) ↔
        (∀ s ∈ steps, s.assess subject depth depth type candidate.steps = .permit) ∧
        ∀ o ∈ obligations,
          o.step.assess subject depth (Assessment.deeper depth) type candidate.examined =
            .permit := by
      simp [has, or_imp, forall_and]
    rw [← hall]
    simp only [ht, true_and]
    constructor
    · -- a denial that is left over makes the summary a denial
      intro h a ha
      by_contra hne
      have hmem : a ∈ as.filter fun b => !b.isPermit := by
        rw [List.mem_filter, Bool.not_eq_true', Bool.eq_false_iff, ne_eq, Assessment.isPermit_iff]
        exact ⟨ha, hne⟩
      split at h
      · rename_i hnil
        rw [hnil] at hmem
        exact List.not_mem_nil hmem
      · rw [Assessment.summarize_eq_permit_iff] at h
        simpa [Assessment.isPermit] using (List.mem_filter.mp h).2
    · intro h
      have hnil : (as.filter fun b => !b.isPermit) = [] := by
        rw [List.filter_eq_nil_iff]
        intro a ha
        simp [h a ha, Assessment.isPermit]
      rw [hnil]
  · simp [ht]

/-- A step is permitted if one of the candidates through its role demands nothing more of the fact
behind it, and permits what continues there. -/
theorem Step.assess_eq_permit {subject type : String} {depth missing : Nat} {s : Step}
    {candidates : List Step} :
    s.assess subject depth missing type candidates = .permit ↔
      ∃ c ∈ candidates, c.direction = s.direction ∧ c.role = s.role ∧ s.next.unmet c.next = [] ∧
        s.next.assess subject (Assessment.deeper depth) c.next = .permit := by
  obtain ⟨direction, role, next⟩ := s
  have hq : ∀ c, c ∈ (Step.along ⟨direction, role, next⟩ candidates).filter
      (fun candidate => (next.unmet candidate.next).isEmpty) ↔
        c ∈ candidates ∧ c.direction = direction ∧ c.role = role ∧ next.unmet c.next = [] := by
    intro c
    simp only [Step.along, List.mem_filter, Bool.and_eq_true, beq_iff_eq, List.isEmpty_iff,
      and_assoc]
  rw [Step.assess]
  split
  · rename_i hnone
    simp only [hnone, List.filter_nil, List.not_mem_nil, false_iff] at hq
    simp only [reduceCtorEq, false_iff, not_exists, not_and]
    exact fun c hc hd hr hu => absurd ⟨hc, hd, hr, hu⟩ (hq c)
  · split
    · rename_i hnone
      simp only [hnone, List.not_mem_nil, false_iff] at hq
      simp only [reduceCtorEq, false_iff, not_exists, not_and]
      exact fun c hc hd hr hu => absurd ⟨hc, hd, hr, hu⟩ (hq c)
    · rw [Assessment.summarize_eq_permit_iff, List.mem_map]
      constructor
      · rintro ⟨c, hc, ha⟩
        obtain ⟨hm, hd, hr, hu⟩ := (hq c).mp hc
        exact ⟨c, hm, hd, hr, hu, ha⟩
      · rintro ⟨c, hm, hd, hr, hu, ha⟩
        exact ⟨c, (hq c).mpr ⟨hm, hd, hr, hu⟩, ha⟩

/-- **The assessment decides coverage**, whatever the subject and the depth. -/
theorem Walk.assess_eq_permit_iff (subject : String) (target : Walk) :
    ∀ (depth : Nat) (candidate : Walk),
      target.assess subject depth candidate = .permit ↔ target.CoveredBy candidate := by
  induction target using Walk.induct with
  | h walk ihs iho =>
    intro depth candidate
    have hs : ∀ s ∈ walk.steps, ∀ missing candidates,
        s.assess subject depth missing walk.type candidates = .permit ↔
          ∃ c ∈ candidates, s.Follows c := by
      intro s hs missing candidates
      rw [Step.assess_eq_permit]
      simp only [ihs s hs]
      exact ⟨fun ⟨c, hc, h1, h2, h3, h4⟩ => ⟨c, hc, h1, h2, h3, h4⟩,
        fun ⟨c, hc, h⟩ => ⟨c, hc, h.1, h.2, h.3, h.4⟩⟩
    have ho : ∀ o ∈ walk.obligations, ∀ missing candidates,
        o.step.assess subject depth missing walk.type candidates = .permit ↔
          ∃ c ∈ candidates, o.step.Follows c := by
      intro o ho missing candidates
      rw [Step.assess_eq_permit]
      simp only [iho o ho]
      exact ⟨fun ⟨c, hc, h1, h2, h3, h4⟩ => ⟨c, hc, h1, h2, h3, h4⟩,
        fun ⟨c, hc, h⟩ => ⟨c, hc, h.1, h.2, h.3, h.4⟩⟩
    rw [Walk.assess_eq_permit, Walk.coveredBy_iff]
    refine and_congr_right fun _ => and_congr ?_ ?_
    · exact forall₂_congr fun s h => hs s h _ _
    · exact forall₂_congr fun o h => ho o h _ _

/-! ### A preorder -/

theorem Walk.mem_examined {walk : Walk} {step : Step} :
    step ∈ walk.examined ↔ step ∈ walk.steps ∨ ∃ o ∈ walk.obligations, o.step = step := by
  simp [Walk.examined]

theorem Walk.unmet_eq_nil_iff {target rule : Walk} : target.unmet rule = [] ↔
    ∀ required ∈ rule.obligations, ∃ imposed ∈ target.obligations,
      imposed.implies required = true := by
  simp [Walk.unmet]

theorem Step.allCoveredBy_iff (outer : List Step) : ∀ inner : List Step,
    Step.allCoveredBy inner outer = true ↔ ∀ s ∈ inner, ∃ t ∈ outer, s.coveredBy t = true
  | [] => by simp [Step.allCoveredBy]
  | s :: inner => by simp [Step.allCoveredBy, Step.allCoveredBy_iff outer inner]

theorem Step.coveredBy_iff {inner outer : Step} : inner.coveredBy outer = true ↔
    outer.direction = inner.direction ∧ outer.role = inner.role ∧
      outer.next.type = inner.next.type ∧
      ∀ s ∈ inner.next.steps, ∃ t ∈ outer.next.steps, s.coveredBy t = true := by
  obtain ⟨direction, role, type, steps, obligations⟩ := inner
  simp only [Step.coveredBy, Bool.and_eq_true, beq_iff_eq, Step.allCoveredBy_iff, and_assoc]

theorem Step.coveredBy_refl (a : Step) : a.coveredBy a = true :=
  Step.coveredBy_iff.mpr ⟨rfl, rfl, rfl, fun s hs => ⟨s, hs, Step.coveredBy_refl s⟩⟩
termination_by sizeOf a.next
decreasing_by exact Step.sizeOf_next_lt hs

theorem Step.coveredBy_trans {a b c : Step} (hab : a.coveredBy b = true)
    (hbc : b.coveredBy c = true) : a.coveredBy c = true := by
  obtain ⟨hd, hr, ht, hs⟩ := Step.coveredBy_iff.mp hab
  obtain ⟨hd', hr', ht', hs'⟩ := Step.coveredBy_iff.mp hbc
  refine Step.coveredBy_iff.mpr ⟨hd'.trans hd, hr'.trans hr, ht'.trans ht, fun s hmem => ?_⟩
  obtain ⟨t, htb, hst⟩ := hs s hmem
  obtain ⟨u, huc, htu⟩ := hs' t htb
  exact ⟨u, huc, Step.coveredBy_trans hst htu⟩
termination_by sizeOf a.next
decreasing_by exact Step.sizeOf_next_lt hmem

theorem Obligation.implies_refl (o : Obligation) : o.implies o = true := by
  simp [Obligation.implies, Step.coveredBy_refl]

theorem Obligation.implies_trans {a b c : Obligation} (hab : a.implies b = true)
    (hbc : b.implies c = true) : a.implies c = true := by
  simp only [Obligation.implies, Bool.and_eq_true, beq_iff_eq] at hab hbc ⊢
  obtain ⟨h1, hab⟩ := hab
  obtain ⟨h2, hbc⟩ := hbc
  refine ⟨h1.trans h2, ?_⟩
  rw [h2] at hab
  split_ifs at hab hbc ⊢
  · exact Step.coveredBy_trans hbc hab
  · exact Step.coveredBy_trans hab hbc

theorem Walk.unmet_self (walk : Walk) : walk.unmet walk = [] :=
  Walk.unmet_eq_nil_iff.mpr fun o ho => ⟨o, ho, o.implies_refl⟩

theorem Walk.unmet_trans {a b c : Walk} (hab : a.unmet b = []) (hbc : b.unmet c = []) :
    a.unmet c = [] := by
  rw [Walk.unmet_eq_nil_iff] at hab hbc ⊢
  intro o ho
  obtain ⟨p, hp, hpo⟩ := hbc o ho
  obtain ⟨q, hq, hqp⟩ := hab p hp
  exact ⟨q, hq, Obligation.implies_trans hqp hpo⟩

/-- **Coverage is reflexive.** -/
theorem Walk.CoveredBy.refl (walk : Walk) : walk.CoveredBy walk := by
  induction walk using Walk.induct with
  | h walk ihs iho =>
    refine Walk.coveredBy_iff.mpr ⟨rfl, fun s hs => ⟨s, hs, rfl, rfl, Walk.unmet_self _, ihs s hs⟩,
      fun o ho => ⟨o.step, ?_, rfl, rfl, Walk.unmet_self _, iho o ho⟩⟩
    exact Walk.mem_examined.mpr (Or.inr ⟨o, ho, rfl⟩)

theorem Step.Follows.trans_of {a b c : Step} (hab : a.Follows b) (hbc : b.Follows c)
    (h : ∀ {v w : Walk}, a.next.CoveredBy v → v.CoveredBy w → a.next.CoveredBy w) :
    a.Follows c :=
  ⟨hbc.direction.trans hab.direction, hbc.role.trans hab.role,
    Walk.unmet_trans hab.imposed hbc.imposed, h hab.covered hbc.covered⟩

/-- **Coverage is transitive.** -/
theorem Walk.CoveredBy.trans {a : Walk} : ∀ {b c : Walk}, a.CoveredBy b → b.CoveredBy c →
    a.CoveredBy c := by
  induction a using Walk.induct with
  | h walk ihs iho =>
    intro b c hab hbc
    refine Walk.coveredBy_iff.mpr ⟨hab.type_eq.trans hbc.type_eq, fun s hs => ?_, fun o ho => ?_⟩
    · obtain ⟨t, ht, hst⟩ := hab.step hs
      obtain ⟨u, hu, htu⟩ := hbc.step ht
      exact ⟨u, hu, hst.trans_of htu (ihs s hs)⟩
    · -- what the obligation follows is a step of the middle walk or one of its obligations
      obtain ⟨t, ht, hot⟩ := hab.obligation ho
      rcases Walk.mem_examined.mp ht with ht | ⟨p, hp, rfl⟩
      · obtain ⟨u, hu, htu⟩ := hbc.step ht
        exact ⟨u, Walk.mem_examined.mpr (Or.inl hu), hot.trans_of htu (iho o ho)⟩
      · obtain ⟨u, hu, hpu⟩ := hbc.obligation hp
        exact ⟨u, hu, hot.trans_of hpu (iho o ho)⟩

end FactGraph
