import FactGraph.Distribution.Engine
import FactGraph.Proofs.Coverage.Order
import FactGraph.Proofs.Except

/-! # What engines permit

An engine whose verifier answers at once permits a specification exactly when one of its rules
applies to the user and has a walk that covers the walk of the specification. Otherwise it denies a
specification that has a walk. -/

namespace FactGraph.DistributionEngine

/-- The verdict of an engine whose verifier answers at once. -/
def verdict (engine : DistributionEngine Id) (spec : Specification) (start : List FactReference)
    (user : Option FactReference) : Except WalkError Assessment :=
  (engine.assess spec start user).map Id.run

/-- A rule is for everyone, or for users to whom the user belongs. -/
def Admits (engine : DistributionEngine Id) (start : List FactReference)
    (user : Option FactReference) (rule : DistributionRule) : Prop :=
  ∀ constraint ∈ rule.user, (engine.verified constraint start user).run = true

variable {engine : DistributionEngine Id} {spec : Specification} {start : List FactReference}
  {user : Option FactReference}

/-! ### Rules -/

theorem assessRule_eq_permit_iff {target : Walk} {rule : DistributionRule} :
    (engine.assessRule target start user rule).run = .permit ↔
      engine.Admits start user rule ∧ target.CoveredBy rule.walk := by
  rw [← Walk.assess_eq_permit_iff (subject user) target 0 rule.walk]
  obtain ⟨specification, walk, _ | constraint⟩ := rule
  · show target.assess (subject user) 0 walk = .permit ↔ _
    simp [Admits]
  · show (if (engine.verified constraint start user).run then target.assess (subject user) 0 walk
      else .deny (subject user ++ " is not among the users this rule permits.") 0) = .permit ↔ _
    simp only [Admits, Option.mem_some_iff, forall_eq']
    split_ifs with hv <;> simp [hv]

/-- Further rules come to a permit if the best assessment before them is one, or some rule
permits. -/
theorem assessRules_eq_permit_iff {target : Walk} :
    ∀ {rules : List DistributionRule} {best : Assessment},
      (engine.assessRules target start user best rules).run = .permit ↔ best = .permit ∨
        ∃ rule ∈ rules, engine.Admits start user rule ∧ target.CoveredBy rule.walk
  | [], best => by simp [assessRules]
  | rule :: rest, best => by
    rw [assessRules]
    simp only [List.mem_cons, exists_eq_or_imp]
    split_ifs with hb
    · rw [Assessment.isPermit_iff] at hb
      simp [hb]
    · show (engine.assessRules target start user
        (best.prefer (engine.assessRule target start user rule).run) rest).run = .permit ↔ _
      rw [assessRules_eq_permit_iff, Assessment.prefer_eq_permit_iff, or_assoc]
      simp only [assessRule_eq_permit_iff]

/-! ### Engines -/

theorem verdict_eq_ok_iff {rule : DistributionRule} {rest : List DistributionRule}
    (hr : engine.rules = rule :: rest) {assessment : Assessment} :
    engine.verdict spec start user = .ok assessment ↔ ∃ target, spec.walk = .ok target ∧
      (engine.assessRules target start user (engine.assessRule target start user rule).run
        rest).run = assessment := by
  unfold verdict assess
  rw [hr]
  rcases spec.walk with e | target
  · simp [Except.map, bind, Except.bind]
  · simp only [Except.ok.injEq, exists_eq_left']
    exact ⟨fun h => by cases h; rfl, fun h => by rw [← h]; rfl⟩

/-- **An engine with rules permits exactly what is covered by the walk of a rule that applies.** -/
theorem verdict_eq_permit_iff (hr : engine.rules ≠ []) :
    engine.verdict spec start user = .ok .permit ↔ ∃ target, spec.walk = .ok target ∧
      ∃ rule ∈ engine.rules, engine.Admits start user rule ∧ target.CoveredBy rule.walk := by
  obtain ⟨rule, rest, hcons⟩ := List.exists_cons_of_ne_nil hr
  rw [verdict_eq_ok_iff hcons]
  refine exists_congr fun target => and_congr_right fun _ => ?_
  rw [assessRules_eq_permit_iff, assessRule_eq_permit_iff, hcons]
  simp only [List.mem_cons, exists_eq_or_imp]

/-- **An engine with rules denies exactly what has a walk that no rule that applies covers.** -/
theorem verdict_eq_deny_iff (hr : engine.rules ≠ []) :
    (∃ reason depth, engine.verdict spec start user = .ok (.deny reason depth)) ↔
      ∃ target, spec.walk = .ok target ∧
        ∀ rule ∈ engine.rules, engine.Admits start user rule → ¬ target.CoveredBy rule.walk := by
  obtain ⟨rule, rest, hcons⟩ := List.exists_cons_of_ne_nil hr
  have hp := @verdict_eq_permit_iff engine spec start user hr
  simp only [verdict_eq_ok_iff hcons] at hp ⊢
  constructor
  · rintro ⟨reason, depth, target, hw, hv⟩
    refine ⟨target, hw, fun rule' hm ha hc => ?_⟩
    obtain ⟨target', hw', hv'⟩ := hp.mpr ⟨target, hw, rule', hm, ha, hc⟩
    obtain rfl : target = target' := by simpa [hw] using hw'
    rw [hv] at hv'
    cases hv'
  · rintro ⟨target, hw, hn⟩
    rcases hv : (engine.assessRules target start user
      (engine.assessRule target start user rule).run rest).run with _ | ⟨reason, depth⟩
    · obtain ⟨target', hw', rule', hm, ha, hc⟩ := hp.mp ⟨target, hw, hv⟩
      obtain rfl : target = target' := by simpa [hw] using hw'
      exact absurd hc (hn rule' hm ha)
    · exact ⟨reason, depth, target, hw, hv⟩

end FactGraph.DistributionEngine
