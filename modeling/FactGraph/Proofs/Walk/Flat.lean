import FactGraph.Proofs.Coverage.Visits
import FactGraph.Proofs.Specification.RoundTrip
import FactGraph.Proofs.Walk.Continuations

/-! # Obligations do not nest

The comparison of obligations follows their steps and looks at no further obligation on the way. It
misses nothing: a condition is refused if what continues from its own unknown has obligations, and
whatever walks are put together from walks without nested obligations has none either.

* `Match.flat_of_walks`: no obligation in the walks of matches contains a further one.
* `Step.coveredBy_iff_coveredWith`: what else a comparison could ask of the facts on the way.
* `Specification.obligations_bare`: **no fact below an obligation of a walk has obligations of its
  own**, whether or not the specification is well formed, so that obligations are compared whole. -/

namespace FactGraph

/-! ### Places in walks -/

/-- From the start of the first walk, its steps lead to where the second one goes on. -/
inductive Walk.Reaches : Walk → Walk → Prop
  | refl (walk : Walk) : Walk.Reaches walk walk
  | behind {walk place : Walk} {step : Step} (mem : step ∈ walk.steps)
      (reaches : Walk.Reaches step.next place) : Walk.Reaches walk place

/-- A walk contains an obligation: of a fact on its way, or within another obligation. -/
inductive Walk.Imposes : Walk → Obligation → Prop
  | here {walk : Walk} {o : Obligation} (mem : o ∈ walk.obligations) : Walk.Imposes walk o
  | behind {walk : Walk} {o : Obligation} {step : Step} (mem : step ∈ walk.steps)
      (imposes : Walk.Imposes step.next o) : Walk.Imposes walk o
  | within {walk : Walk} {o p : Obligation} (mem : p ∈ walk.obligations)
      (imposes : Walk.Imposes p.step.next o) : Walk.Imposes walk o

/-- A walk without obligations on its way has none at any place that its steps lead to. -/
theorem Walk.Reaches.obligations_eq_nil {walk place : Walk} (h : walk.Reaches place) :
    walk.hasObligations = false → place.obligations = [] := by
  induction h with
  | refl => exact fun hb => (Walk.hasObligations_eq_false_iff.mp hb).1
  | behind mem _ ih => exact fun hb => ih ((Walk.hasObligations_eq_false_iff.mp hb).2 _ mem)

theorem Walk.Imposes.hasObligations_ne {walk : Walk} {o : Obligation} (h : walk.Imposes o) :
    walk.hasObligations ≠ false := by
  induction h with
  | here mem =>
    intro hb
    rw [(Walk.hasObligations_eq_false_iff.mp hb).1] at mem
    cases mem
  | behind mem _ ih => exact fun hb => ih ((Walk.hasObligations_eq_false_iff.mp hb).2 _ mem)
  | within mem _ _ =>
    intro hb
    rw [(Walk.hasObligations_eq_false_iff.mp hb).1] at mem
    cases mem

/-- **Behind an obligation of a flat walk there are no obligations.** -/
theorem Walk.Imposes.bare {walk : Walk} {o : Obligation} (h : walk.Imposes o) :
    walk.Flat → o.step.next.hasObligations = false := by
  induction h with
  | here mem => exact fun ⟨plain, _⟩ => plain _ mem
  | behind mem _ ih => exact fun ⟨_, hbehind⟩ => ih (hbehind _ mem)
  | within mem imposes _ =>
    exact fun ⟨plain, _⟩ => absurd (plain _ mem) (imposes.hasObligations_ne)

/-! ### Building flat walks -/

namespace Walk.Flat

theorem ofType (type : String) : (Walk.ofType type).Flat :=
  .intro (fun _ ho => absurd ho List.not_mem_nil) fun _ hs => absurd hs List.not_mem_nil

theorem step {walk : Walk} (h : walk.Flat) (type : String) (direction : Direction)
    (role : String) : Flat ⟨type, [⟨direction, role, walk⟩], []⟩ :=
  .intro (fun _ ho => absurd ho List.not_mem_nil) (List.forall_mem_singleton.mpr h)

theorem chain {walk : Walk} (h : walk.Flat) (path : PathCondition) (type : String) :
    (path.chain type walk).Flat :=
  @PathCondition.rel_chain (fun walk _ => walk.Flat) step walk walk h path type

theorem merge {left right merged : Walk} (hl : left.Flat) (hr : right.Flat)
    (h : left.merge right = .ok merged) : merged.Flat := by
  obtain ⟨plain, behind⟩ := hl
  obtain ⟨plain', behind'⟩ := hr
  unfold Walk.merge at h
  split_ifs at h
  cases h
  exact .intro (List.forall_mem_append.mpr ⟨plain, plain'⟩)
    (List.forall_mem_append.mpr ⟨behind, behind'⟩)

theorem obligeAll {scope : Scope} {unknown : Label} : ∀ {conditions : List Condition}
    {walk walk' : Walk}, walk.Flat →
    Condition.obligeAll scope unknown.name walk conditions = .ok walk' → walk'.Flat
  | [], _, _, h, hw => by
    cases hw
    exact h
  | condition :: rest, walk, walk', ⟨plain, behind⟩, hw => by
    obtain ⟨next, hnext, hw⟩ := Except.bind_eq_ok_iff.mp hw
    obtain ⟨added, hadded, rfl⟩ := Condition.oblige_eq_ok_iff.mp hnext
    have hplain : ∀ o ∈ added, o.step.next.hasObligations = false := by
      cases condition with
      | path =>
        cases hadded
        exact fun _ ho => absurd ho List.not_mem_nil
      | existential holds block =>
        -- the one child walk is refused if any fact on its way has obligations
        obtain ⟨walks, child, -, -, hbare, rfl⟩ :=
          Condition.obligations_existential_eq_ok_iff.mp hadded
        exact List.forall_mem_map.mpr (Walk.hasObligations_eq_false_iff.mp hbare).2
    have hnext : Flat { walk with obligations := walk.obligations ++ added } :=
      .intro (List.forall_mem_append.mpr ⟨plain, hplain⟩) behind
    exact hnext.obligeAll hw

end Walk.Flat

/-- **No obligation in the walks of matches contains a further one.** -/
theorem Match.flat_of_walks : ∀ {block : List Match} {scope : Scope} {walks : Continuations},
    Match.walks scope block = .ok walks →
      ∀ {label : String} {walk : Walk}, walks.walk? label = some walk → walk.Flat
  | [], _, _, hw, _, _, hl => by
    cases hw
    cases hl
  | ⟨unknown, conditions⟩ :: rest, scope, walks, hw, label, walk, hl => by
    obtain ⟨behind, path, next, hb, -, hnext, hlead⟩ := Match.walks_cons_eq_ok hw
    have hbehind : ∀ {label walk}, behind.walk? label = some walk → walk.Flat :=
      Match.flat_of_walks hb
    have hrest : ∀ {label walk}, (behind.without unknown.name).walk? label = some walk →
        walk.Flat := fun hl => by
      rw [Continuations.walk?_without] at hl
      split_ifs at hl
      exact hbehind hl
    have hunknown : ((behind.walk? unknown.name).getD (Walk.ofType unknown.type)).Flat := by
      rcases hu : behind.walk? unknown.name with _ | walk
      · exact .ofType unknown.type
      · exact hbehind hu
    obtain ⟨type, merged, -, hm, rfl⟩ := PathCondition.exists_merged_of_lead hlead
    have hchain : (path.chain type next).Flat := (hunknown.obligeAll hnext).chain path type
    rw [Continuations.walk?_insert] at hl
    split_ifs at hl
    · cases hl
      obtain ⟨-, rfl⟩ | ⟨other, hother, hm⟩ := hm
      · exact hchain
      · exact hchain.merge (hrest hother) hm
    · exact hrest hl

theorem Specification.flat_of_walk {spec : Specification} {walk : Walk}
    (h : spec.walk = .ok walk) : walk.Flat := by
  obtain ⟨_ | ⟨given, _ | ⟨other, labels⟩⟩, body, projections⟩ := spec
  · cases h
  · obtain ⟨walks, hws, hw⟩ := Except.bind_eq_ok_iff.mp h
    cases hw
    rcases hl : walks.walk? given.name with _ | walk
    · exact .ofType given.type
    · exact Match.flat_of_walks hws hl
  · cases h

/-! ### Comparing whole obligations -/

/-- A step is covered, and at each pair of facts behind the two steps the obligations there are
related. -/
def Step.CoveredWith (R : List Obligation → List Obligation → Prop) (inner outer : Step) : Prop :=
  outer.direction = inner.direction ∧ outer.role = inner.role ∧
    outer.next.type = inner.next.type ∧ R inner.next.obligations outer.next.obligations ∧
    ∀ s ∈ inner.next.steps, ∃ t ∈ outer.next.steps, s.CoveredWith R t
termination_by sizeOf inner.next
decreasing_by exact Step.sizeOf_next_lt ‹_›

/-- Where all the obligations behind two steps are related, a comparison that looks at them finds
nothing more than one that does not. -/
theorem Step.coveredBy_iff_coveredWith {R : List Obligation → List Obligation → Prop}
    {inner outer : Step} (h : ∀ v w, inner.next.Reaches v → outer.next.Reaches w →
      R v.obligations w.obligations) :
    inner.coveredBy outer = true ↔ inner.CoveredWith R outer := by
  rw [Step.CoveredWith, Step.coveredBy_iff]
  have hhere := h _ _ (.refl _) (.refl _)
  have hsteps : ∀ s ∈ inner.next.steps, ∀ t ∈ outer.next.steps,
      (s.coveredBy t = true ↔ s.CoveredWith R t) := fun s hs t ht =>
    Step.coveredBy_iff_coveredWith fun v w hv hw => h v w (.behind hs hv) (.behind ht hw)
  simp only [hhere, true_and]
  refine and_congr_right fun _ => and_congr_right fun _ => and_congr_right fun _ => ?_
  exact forall₂_congr fun s hs => exists_congr fun t => and_congr_right fun ht => hsteps s hs t ht
termination_by sizeOf inner.next
decreasing_by exact Step.sizeOf_next_lt ‹_›

namespace Specification

/-- **No fact below an obligation of a walk has obligations of its own**, so that obligations are
compared whole: the comparison ignores what is imposed on the way, and whatever else it could ask
of the obligations there, it would find the same. -/
theorem obligations_bare {spec : Specification} {walk : Walk} {o : Obligation}
    (h : spec.walk = .ok walk) (ho : walk.Imposes o) :
    (∀ below, o.step.next.Reaches below → below.obligations = []) ∧
      (∀ other : Step, o.step.coveredBy other = true ↔
        o.step.CoveredWith (fun _ _ => True) other) ∧
      ∀ (rule : Specification) (ruleWalk : Walk) (p : Obligation), rule.walk = .ok ruleWalk →
        ruleWalk.Imposes p → ∀ R : List Obligation → List Obligation → Prop, R [] [] →
          ((o.step.coveredBy p.step = true ↔ o.step.CoveredWith R p.step) ∧
            (p.step.coveredBy o.step = true ↔ p.step.CoveredWith R o.step)) := by
  have hbare : ∀ {spec : Specification} {walk : Walk} {o : Obligation}, spec.walk = .ok walk →
      walk.Imposes o → ∀ below, o.step.next.Reaches below → below.obligations = [] :=
    fun hw hi _ hr => hr.obligations_eq_nil (hi.bare (flat_of_walk hw))
  refine ⟨hbare h ho, fun _ => Step.coveredBy_iff_coveredWith fun _ _ _ _ => trivial,
    fun rule ruleWalk p hr hp R hR => ?_⟩
  have hrel : ∀ {a b : Obligation}, (∀ v, a.step.next.Reaches v → v.obligations = []) →
      (∀ w, b.step.next.Reaches w → w.obligations = []) → ∀ v w, a.step.next.Reaches v →
        b.step.next.Reaches w → R v.obligations w.obligations := fun ha hb v w hv hw => by
    rw [ha v hv, hb w hw]
    exact hR
  exact ⟨Step.coveredBy_iff_coveredWith (hrel (hbare h ho) (hbare hr hp)),
    Step.coveredBy_iff_coveredWith (hrel (hbare hr hp) (hbare h ho))⟩

/-- Projects without a deletion that has been approved. -/
def withoutApprovedDeletion : Specification :=
  projectsWhere false [deletion, referring "a" "Approved" "deleted" "d" "Deleted"]

/-- The obligation that a project has no deletion that has been approved. -/
def noApprovedDeletion : Obligation :=
  ⟨false, ⟨.successor, "project", ⟨"Deleted",
    [⟨.successor, "deleted", .ofType "Approved"⟩], []⟩⟩⟩

theorem obligations_bare_noApprovedDeletion : ∃ walk, withoutApprovedDeletion.walk = .ok walk ∧
    walk.Imposes noApprovedDeletion ∧
    (∀ below, noApprovedDeletion.step.next.Reaches below → below.obligations = []) ∧
    noApprovedDeletion.step.CoveredWith Eq noApprovedDeletion.step := by
  have hw : withoutApprovedDeletion.walk = .ok ⟨"Root", [⟨.successor, "root",
      ⟨"Project", [], [noApprovedDeletion]⟩⟩], []⟩ := rfl
  have ho : Walk.Imposes ⟨"Root", [⟨.successor, "root",
      ⟨"Project", [], [noApprovedDeletion]⟩⟩], []⟩ noApprovedDeletion :=
    .behind (List.mem_singleton_self _) (.here (List.mem_singleton_self _))
  obtain ⟨hbare, -, hwhole⟩ := obligations_bare hw ho
  exact ⟨_, hw, ho, hbare, (hwhole _ _ _ hw ho Eq rfl).1.mp (Step.coveredBy_refl _)⟩

end Specification

end FactGraph
