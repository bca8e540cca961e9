import FactGraph.Proofs.Coverage.Visits
import FactGraph.Proofs.Mirrors
import FactGraph.Proofs.Walk.Continuations

/-! # Walks that are alike

Two walks are alike if they start at the same type, take steps through the same roles to walks that
are alike, and impose obligations that are alike, in whatever order and however often. What is built
from walks that are alike is alike.

* `Walk.alike_iff`: which walks are alike.
* `Walk.Alike.hasObligations_eq`: walks that are alike carry obligations on the way, or none does.
* `Continuations.Alike.agree_lead`: a path condition in front of walks that are alike. -/

namespace FactGraph

/-! ### Walks that are alike -/

/-- Two walks start at the same type, and their steps and obligations are alike. -/
def Walk.Alike (walk other : Walk) : Prop :=
  walk.type = other.type ∧
    Mirrors (fun s t => s.val.direction = t.direction ∧ s.val.role = t.role ∧
      s.val.next.Alike t.next) walk.steps.attach other.steps ∧
    Mirrors (fun o p => o.val.holds = p.holds ∧ o.val.step.direction = p.step.direction ∧
      o.val.step.role = p.step.role ∧ o.val.step.next.Alike p.step.next)
        walk.obligations.attach other.obligations
termination_by sizeOf walk
decreasing_by
  · exact Step.sizeOf_next_lt s.property
  · exact Obligation.sizeOf_next_lt o.property

/-- Two steps go the same way, to walks that are alike. -/
structure Step.Alike (step other : Step) : Prop where
  direction : step.direction = other.direction
  role : step.role = other.role
  next : step.next.Alike other.next

/-- Two obligations demand, or both forbid, steps that are alike. -/
structure Obligation.Alike (obligation other : Obligation) : Prop where
  holds : obligation.holds = other.holds
  step : obligation.step.Alike other.step

/-- **Which walks are alike.** -/
theorem Walk.alike_iff {walk other : Walk} : walk.Alike other ↔ walk.type = other.type ∧
    Mirrors Step.Alike walk.steps other.steps ∧
      Mirrors Obligation.Alike walk.obligations other.obligations := by
  have hstep : ∀ s t : Step, s.Alike t ↔
      s.direction = t.direction ∧ s.role = t.role ∧ s.next.Alike t.next :=
    fun s t => ⟨fun h => ⟨h.1, h.2, h.3⟩, fun h => ⟨h.1, h.2.1, h.2.2⟩⟩
  have hobligation : ∀ o p : Obligation, o.Alike p ↔ o.holds = p.holds ∧ o.step.Alike p.step :=
    fun o p => ⟨fun h => ⟨h.1, h.2⟩, fun h => ⟨h.1, h.2⟩⟩
  rw [Walk.Alike]
  simp only [← hstep, ← hobligation, Mirrors.attach_iff]

namespace Walk.Alike

variable {walk other walk' other' : Walk}

theorem type_eq (h : walk.Alike other) : walk.type = other.type := (alike_iff.mp h).1

theorem steps (h : walk.Alike other) : Mirrors Step.Alike walk.steps other.steps :=
  (alike_iff.mp h).2.1

theorem obligations (h : walk.Alike other) :
    Mirrors Obligation.Alike walk.obligations other.obligations := (alike_iff.mp h).2.2

theorem refl (walk : Walk) : walk.Alike walk := by
  induction walk using Walk.induct with
  | h walk ihs iho =>
    exact alike_iff.mpr ⟨rfl, .refl fun s hs => ⟨rfl, rfl, ihs s hs⟩,
      .refl fun o ho => ⟨rfl, rfl, rfl, iho o ho⟩⟩

theorem rel_refl : ∀ walk? : Option Walk, Option.Rel Alike walk? walk?
  | none => .none
  | some walk => .some (refl walk)

/-- **Walks that are alike carry obligations on the way, or none of them does.** -/
theorem hasObligations_eq : ∀ {other : Walk}, walk.Alike other →
    walk.hasObligations = other.hasObligations := by
  induction walk using Walk.induct with
  | h walk ihs _ =>
    intro other h
    rw [Bool.eq_iff_iff, ← not_iff_not, Bool.not_eq_true, Bool.not_eq_true,
      hasObligations_eq_false_iff, hasObligations_eq_false_iff, h.obligations.eq_nil_iff]
    exact and_congr_right fun _ => h.steps.forall_iff fun s hs t hst => by
      rw [ihs s hs hst.next]

/-! ### Building walks -/

theorem step (h : walk.Alike other) (type : String) (direction : Direction) (role : String) :
    Alike ⟨type, [⟨direction, role, walk⟩], []⟩ ⟨type, [⟨direction, role, other⟩], []⟩ :=
  alike_iff.mpr ⟨rfl, .singleton ⟨rfl, rfl, h⟩, .refl (by simp)⟩

theorem chain (h : walk.Alike other) (path : PathCondition) (type : String) :
    (path.chain type walk).Alike (path.chain type other) :=
  path.rel_chain step h type

theorem agree_merge (h : walk.Alike other) (h' : walk'.Alike other') :
    Except.Agree Alike (walk.merge walk') (other.merge other') := by
  unfold merge
  rw [h.type_eq, h'.type_eq]
  split_ifs
  · exact alike_iff.mpr ⟨rfl, h.steps.append h'.steps, h.obligations.append h'.obligations⟩
  · trivial

end Walk.Alike

/-! ### Continuations that are alike -/

namespace Continuations

/-- From each label both continue, by walks that are alike, or neither does. -/
def Alike (walks others : Continuations) : Prop :=
  ∀ label, Option.Rel Walk.Alike (walks.walk? label) (others.walk? label)

namespace Alike

variable {walks others : Continuations} {walk other : Walk} {label : String}

theorem refl (walks : Continuations) : walks.Alike walks := fun label =>
  Walk.Alike.rel_refl (walks.walk? label)

theorem without (h : walks.Alike others) (label : String) :
    (walks.without label).Alike (others.without label) := fun name => by
  rw [walk?_without, walk?_without]
  split_ifs
  · exact .none
  · exact h name

theorem insert (h : walks.Alike others) (hw : walk.Alike other) (label : String) :
    (walks.insert label walk).Alike (others.insert label other) := fun name => by
  rw [walk?_insert, walk?_insert]
  split_ifs
  · exact .some hw
  · exact h name

theorem walk?_cases (h : walks.Alike others) (label : String) :
    walks.walk? label = none ∧ others.walk? label = none ∨
      ∃ walk other, walks.walk? label = some walk ∧ others.walk? label = some other ∧
        walk.Alike other := by
  have hl := h label
  rcases hw : walks.walk? label with _ | walk <;>
    rcases ho : others.walk? label with _ | other <;> rw [hw, ho] at hl
  · exact Or.inl ⟨rfl, rfl⟩
  · cases hl
  · cases hl
  · cases hl with
    | some hl => exact Or.inr ⟨walk, other, rfl, rfl, hl⟩

theorem getD (h : walks.Alike others) (label : String) (hw : walk.Alike other) :
    ((walks.walk? label).getD walk).Alike ((others.walk? label).getD other) := by
  obtain ⟨hx, hy⟩ | ⟨x, y, hx, hy, hxy⟩ := h.walk?_cases label <;> rw [hx, hy]
  · exact hw
  · exact hxy

/-- **A path condition in front of walks that are alike leads along walks that are alike.** -/
theorem agree_lead (h : walks.Alike others) (hw : walk.Alike other) (scope : Scope)
    (path : PathCondition) :
    Except.Agree Alike (path.lead scope walk walks) (path.lead scope other others) := by
  unfold PathCondition.lead
  rcases scope.type? path.labelRight with _ | type
  · trivial
  · have hchain := hw.chain path type
    obtain ⟨hx, hy⟩ | ⟨x, y, hx, hy, hxy⟩ := h.walk?_cases path.labelRight <;> simp only [hx, hy]
    · exact h.insert hchain path.labelRight
    · exact (hchain.agree_merge hxy).bind fun merged merged' hm => h.insert hm path.labelRight

end Alike

end Continuations

/-! ### Obligations that are alike -/

section

variable {walk other : Walk} {scope : Scope} {unknown : String}

/-- Existential conditions demand alike if their blocks lead along walks that are alike. -/
theorem Condition.agree_oblige_existential {block block' : List Match} (hw : walk.Alike other)
    (h : Except.Agree Continuations.Alike (Match.walks scope block) (Match.walks scope block'))
    (holds : Bool) : Except.Agree Walk.Alike
      ((Condition.existential holds block).oblige scope unknown walk)
      ((Condition.existential holds block').oblige scope unknown other) := by
  rw [Condition.oblige, Condition.oblige]
  refine h.bind fun walks others hws => ?_
  obtain ⟨hx, hy⟩ | ⟨child, child', hx, hy, hchild⟩ := hws.walk?_cases unknown <;>
    simp only [hx, hy]
  · trivial
  · rw [hchild.hasObligations_eq]
    split_ifs
    · trivial
    · have hsteps : Mirrors Obligation.Alike (child.steps.map fun step => ⟨holds, step⟩)
          (child'.steps.map fun step => ⟨holds, step⟩) :=
        hchild.steps.map fun _ _ _ hs => ⟨rfl, hs⟩
      exact Walk.alike_iff.mpr ⟨hw.type_eq, hw.steps, hw.obligations.append hsteps⟩

theorem Condition.agree_oblige (hw : walk.Alike other) (condition : Condition) :
    Except.Agree Walk.Alike (condition.oblige scope unknown walk)
      (condition.oblige scope unknown other) := by
  cases condition with
  | path _ => exact hw
  | existential holds block => exact Condition.agree_oblige_existential hw (.refl .refl _) holds

/-- **Conditions on facts from which walks go on alike demand alike.** -/
theorem Condition.agree_obligeAll : ∀ (conditions : List Condition) {walk other : Walk},
    walk.Alike other → Except.Agree Walk.Alike
      (Condition.obligeAll scope unknown walk conditions)
      (Condition.obligeAll scope unknown other conditions)
  | [], _, _, hw => hw
  | condition :: rest, _, _, hw =>
    (condition.agree_oblige hw).bind fun _ _ hnext => Condition.agree_obligeAll rest hnext

end

end FactGraph
