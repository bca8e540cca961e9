import FactGraph.Proofs.Plan.Steps
import FactGraph.Statement.OfPlan

/-! # Failures of a compilation

Whatever a specification looks like, its compilation fails in few ways. Start facts that do not fit
the given labels are refused first; then a path condition may refer to a label that is not bound,
and then the edges of a plan may not be connected, or a group may have none. A branch is always
there when something is joined onto it, and a plan that selects something has a slot to select
from.

* `Joined.Proceeds.anchored`: a plan selects something only if one of its inputs has parameters.
* `Plan.ends_page`: what becomes of a plan from which a slot can be selected.
* `Specification.failures_closed`: the errors of plans and pages. -/

namespace FactGraph

/-! ### Plans that select something -/

theorem Plan.Prolongs.exists_pinned {old new : Plan} (h : old.Prolongs new)
    (hp : ∃ input ∈ old.inputs, input.typeParameter.isSome = true) :
    ∃ input ∈ new.inputs, input.typeParameter.isSome = true := by
  obtain ⟨input, hi, hsome⟩ := hp
  obtain ⟨derived, hm, hd⟩ := Plan.exists_right_of_forall₂ h.inputs hi
  obtain rfl | ⟨_, _, _, _, _, _, rfl⟩ := hd
  · exact ⟨_, hm, hsome⟩
  · exact ⟨_, hm, rfl⟩

namespace Joined

/-- Some input has its parameters, or else nothing is selected and only inputs are bound. -/
def Anchored (joined : Joined) : Prop :=
  (∃ input ∈ joined.plan.inputs, input.typeParameter.isSome = true) ∨
    joined.plan.outputs = [] ∧ ∀ name fact, joined.bindings.lookup name = some fact →
      (joined.plan.input? name).isSome = true

variable {schema : Schema} {stem : String} {path path' : List Nat} {a b new : Joined}

theorem Anchored.forget (h : b.Anchored) {bindings : Bindings}
    (hb : ∀ name fact, bindings.lookup name = some fact → b.bindings.lookup name = some fact) :
    Joined.Anchored ⟨b.plan, bindings⟩ :=
  h.imp_right fun ⟨ho, hi⟩ => ⟨ho, fun name fact hl => hi name fact (hb name fact hl)⟩

theorem Anchored.join {unknown : Label} {condition : PathCondition} {branch : Branch}
    (ha : a.Anchored) (h : condition.join schema stem path unknown a = .ok branch)
    (hl : branch.last = some b) : b.Anchored := by
  have hp := (PathCondition.prolongs_of_join h hl).plan
  obtain ⟨right, hright, hused⟩ := PathCondition.used_of_join h hl
  rcases ha with hpinned | ⟨-, hinputs⟩
  · exact Or.inl (hp.exists_pinned hpinned)
  · obtain ⟨input, hi⟩ := Option.isSome_iff_exists.mp
      (hp.isSome_input? (hinputs condition.labelRight right hright))
    exact Or.inl ⟨input, List.mem_of_find?_eq_some hi, hused input hi⟩

/-- **A plan selects something only if one of its inputs has parameters.** -/
theorem Proceeds.anchored (h : a.Proceeds schema path b) (ha : a.Anchored) : b.Anchored := by
  induction h with
  | refl => exact ha
  | trans _ _ ih ih' => exact ih' (ih ha)
  | join hjoin hlast => exact ha.join hjoin hlast
  | forget h ih => exact (ih ha).forget h.prolongs.bindings
  | group hgroup h ih =>
    obtain ⟨-, hi, -, -⟩ := Plan.addGroup_eq_ok hgroup
    have ho := (Plan.outputs_of_addGroup hgroup).2
    refine (ih ?_).forget h.prolongs.bindings
    unfold Anchored Plan.input? at ha ⊢
    rwa [hi, ho]

end Joined

/-- At the start nothing is selected, and the given labels are those of the inputs. -/
theorem Specification.anchored_initial {spec : Specification} {schema : Schema}
    {start : List FactReference} (hs : spec.checkStart start = .ok ()) :
    (spec.initial schema start).Anchored := by
  refine Or.inr ⟨rfl, fun name fact hl => ?_⟩
  obtain ⟨before, behind, hsplit, -⟩ := List.lookup_eq_some_iff.mp hl
  have hm : (name, fact) ∈ (spec.given.map Label.name).zip spec.givenFacts := by
    rw [← List.mem_reverse, show ((spec.given.map Label.name).zip spec.givenFacts).reverse =
      before ++ (name, fact) :: behind from hsplit]
    exact List.mem_append_right _ List.mem_cons_self
  obtain ⟨label, hlabel, rfl⟩ := List.mem_map.mp (List.of_mem_zip hm).1
  obtain ⟨i, hi⟩ := List.mem_iff_getElem?.mp hlabel
  obtain ⟨input, hinput, hname, -⟩ : ∃ input ∈ spec.inputs schema start,
      input.label = label.name ∧ input.slot = i + 1 := exists_input (checkStart_eq_ok hs).1 hi
  exact List.find?_isSome.mpr ⟨input, hinput, by simpa using hname⟩

/-! ### Statements of plans -/

/-- A statement cannot be written: an edge is not connected, or a group has no edge. -/
def PlanError.IsUnconnected (error : PlanError) : Prop :=
  (∃ edge, error = .disconnectedEdge edge) ∨ error = .emptyGroup

namespace Plan

theorem Edge.ends_joins (edge : Edge) (joined : List Nat) :
    (edge.joins joined).Ends (fun _ => True) PlanError.IsUnconnected := by
  unfold joins
  split
  · exact .of_ok trivial
  · exact .of_ok trivial
  · exact .of_ok trivial
  · exact .of_error (Or.inl ⟨_, rfl⟩)

theorem ends_joinEdges : ∀ (edges : List Edge) (joined : List Nat),
    (joinEdges joined edges).Ends (fun _ => True) PlanError.IsUnconnected
  | [], _ => .of_ok trivial
  | edge :: rest, joined =>
    (edge.ends_joins joined).bind fun _ _ =>
      (ends_joinEdges rest (edge.joinedAfter joined)).bind fun _ _ => .of_ok trivial

mutual

theorem Group.ends_subquery : ∀ (group : Group) (joined : List Nat),
    (group.subquery joined).Ends (fun _ => True) PlanError.IsUnconnected
  | ⟨[], _⟩, _ => .of_error (Or.inr rfl)
  | ⟨edge :: edges, groups⟩, joined => by
    have hrest : ∀ (far : Join) (tests : List Test), Except.Ends (do
        let (joins, joined) ← joinEdges (edge.joinedAfter joined) edges
        let absent ← Group.subqueries joined groups
        return (⟨.edge edge.index, far :: joins, tests, absent⟩ : Subquery))
          (fun _ => True) PlanError.IsUnconnected := fun _ _ =>
      (ends_joinEdges edges (edge.joinedAfter joined)).bind fun inner _ =>
        (Group.ends_subqueries groups inner.2).bind fun _ _ => .of_ok trivial
    rw [Group.subquery]
    split
    · exact hrest edge.joinSuccessor [edge.meetsPredecessor, edge.hasRole]
    · exact hrest edge.joinPredecessor [edge.meetsSuccessor, edge.hasRole]
    · exact .of_error (Or.inl ⟨_, rfl⟩)

theorem Group.ends_subqueries : ∀ (groups : List Group) (joined : List Nat),
    (Group.subqueries joined groups).Ends (fun _ => True) PlanError.IsUnconnected
  | [], _ => .of_ok trivial
  | group :: rest, joined =>
    (Group.ends_subquery group joined).bind fun _ _ =>
      (Group.ends_subqueries rest joined).bind fun _ _ => .of_ok trivial

end

theorem exists_root_of_pinned {plan : Plan}
    (h : ∃ input ∈ plan.inputs, input.typeParameter.isSome = true) :
    ∃ root, plan.root = .ok root := by
  unfold root
  split
  · split_ifs <;> exact ⟨_, rfl⟩
  · split
    · exact ⟨_, rfl⟩
    · rename_i hnone
      obtain ⟨input, hi, hsome⟩ := h
      exact absurd hsome (List.find?_eq_none.mp hnone input hi)

/-- **A plan that selects something is written as a statement**, or not all of it is connected. -/
theorem ends_page {plan : Plan} (ho : plan.outputs ≠ [])
    (h : ∃ input ∈ plan.inputs, input.typeParameter.isSome = true) (bookmark : FactBookmark)
    (limit : Nat) : (plan.page bookmark limit).Ends (fun _ => True) PlanError.IsUnconnected := by
  obtain ⟨root, hr⟩ := exists_root_of_pinned h
  refine Except.Ends.bind (Q := fun _ => True) ?_ fun _ _ => .of_ok trivial
  unfold Plan.statement
  rw [if_neg (mt List.isEmpty_iff.mp ho), hr]
  refine (ends_joinEdges plan.edges [root]).bind fun inner _ => ?_
  exact (Group.ends_subqueries plan.groups inner.2).bind fun _ _ => .of_ok trivial

end Plan

/-! ### Start facts that do not fit -/

namespace Specification

variable {spec : Specification} {schema : Schema} {start : List FactReference}

/-- The first start fact that is not of the type of its given label. -/
structure FirstMistyped (spec : Specification) (start : List FactReference) (index : Nat)
    (expected actual : String) : Prop where
  given : (spec.given[index]?).map Label.type = some expected
  fact : (start[index]?).map FactReference.type = some actual
  differs : actual ≠ expected
  before : ∀ j < index, (start[j]?).map FactReference.type = (spec.given[j]?).map Label.type

theorem checkStart_eq_count_iff {m n : Nat} : spec.checkStart start = .error (.startCount m n) ↔
    start.length ≠ spec.given.length ∧ m = start.length ∧ n = spec.given.length := by
  unfold checkStart
  split_ifs with hlen
  · simp [hlen, eq_comm]
  · split <;> simp_all

theorem find?_zipIdx_eq_some_iff {α : Type} {p : α → Bool} {l : List α} {a : α} {i : Nat} :
    (l.zipIdx.find? fun (x, _) => p x) = some (a, i) ↔
      l[i]? = some a ∧ p a = true ∧ ∀ j < i, ∀ b ∈ l[j]?, p b = false := by
  rw [List.find?_eq_some_iff_getElem]
  constructor
  · rintro ⟨hp, j, hj, hget, hbefore⟩
    rw [List.length_zipIdx] at hj
    rw [List.getElem_zipIdx, Prod.mk.injEq, Nat.zero_add] at hget
    obtain ⟨rfl, rfl⟩ := hget
    refine ⟨List.getElem?_eq_getElem hj, hp, fun k hk b hb => ?_⟩
    obtain ⟨_, rfl⟩ := List.getElem?_eq_some_iff.mp hb
    simpa using hbefore k hk
  · rintro ⟨hget, hp, hbefore⟩
    obtain ⟨hlt, rfl⟩ := List.getElem?_eq_some_iff.mp hget
    refine ⟨hp, i, by simpa using hlt, by simp, fun j hj => ?_⟩
    have hb := hbefore j hj l[j] (List.getElem?_eq_getElem (Nat.lt_trans hj hlt))
    simpa using hb

/-- The first mistyped start fact is the first one that is found to differ from its given label. -/
theorem firstMistyped_iff (hlen : start.length = spec.given.length) {index : Nat}
    {expected actual : String} : spec.FirstMistyped start index expected actual ↔
      ∃ fact label, ((start.zip spec.given).zipIdx.find? fun ((fact, label), _) =>
        fact.type != label.type) = some ((fact, label), index) ∧
          label.type = expected ∧ fact.type = actual := by
  have hfind := @find?_zipIdx_eq_some_iff _ (fun (fact, label) => fact.type != label.type)
    (start.zip spec.given)
  constructor
  · rintro ⟨hgiven, hfact, hdiffers, hbefore⟩
    obtain ⟨label, hlabel, rfl⟩ := Option.map_eq_some_iff.mp hgiven
    obtain ⟨fact, hget, rfl⟩ := Option.map_eq_some_iff.mp hfact
    refine ⟨fact, label, hfind.mpr ⟨List.getElem?_zip_eq_some.mpr ⟨hget, hlabel⟩,
      by simpa using hdiffers, fun j hj b hb => ?_⟩, rfl, rfl⟩
    obtain ⟨hs, hg⟩ := List.getElem?_zip_eq_some.mp hb
    have htypes := hbefore j hj
    rw [hs, hg] at htypes
    simpa using htypes
  · rintro ⟨fact, label, hsome, rfl, rfl⟩
    obtain ⟨hget, hdiffers, hbefore⟩ := hfind.mp hsome
    obtain ⟨hfact, hlabel⟩ := List.getElem?_zip_eq_some.mp hget
    refine ⟨by rw [hlabel]; rfl, by rw [hfact]; rfl, by simpa using hdiffers, fun j hj => ?_⟩
    have hlt := Nat.lt_trans hj (List.getElem?_eq_some_iff.mp hlabel).1
    have hg : spec.given[j]? = some spec.given[j] := List.getElem?_eq_getElem hlt
    have hs : start[j]? = some start[j] := List.getElem?_eq_getElem (hlen ▸ hlt)
    have htypes := hbefore j hj (start[j], spec.given[j]) (List.getElem?_zip_eq_some.mpr ⟨hs, hg⟩)
    rw [hs, hg]
    simpa using htypes

theorem checkStart_eq_type_iff {index : Nat} {expected actual : String} :
    spec.checkStart start = .error (.startType index expected actual) ↔
      start.length = spec.given.length ∧ spec.FirstMistyped start index expected actual := by
  unfold checkStart
  split_ifs with hlen
  · simp [hlen]
  rw [ne_eq, not_not] at hlen
  rw [and_iff_right hlen, firstMistyped_iff hlen]
  constructor
  · intro h
    split at h
    · rename_i fact label index' hsome
      cases h
      exact ⟨fact, label, hsome, rfl, rfl⟩
    · cases h
  · rintro ⟨fact, label, hsome, rfl, rfl⟩
    rw [hsome]

theorem eq_of_checkStart_eq_error {e : PlanError} (h : spec.checkStart start = .error e) :
    (∃ m n, e = .startCount m n) ∨
      ∃ index expected actual, e = .startType index expected actual := by
  unfold checkStart at h
  split_ifs at h
  · cases h
    exact Or.inl ⟨_, _, rfl⟩
  · split at h <;> cases h
    exact Or.inr ⟨_, _, _, rfl⟩

/-! ### Closed failures -/

/-- Behind a start that fits, the only error of the plans is a label that is not bound. -/
theorem plans_eq_error_iff {e : PlanError} (he : ¬ e.IsUnknownLabel) :
    spec.plans schema start = .error e ↔ spec.checkStart start = .error e := by
  rcases hs : spec.checkStart start with e' | _
  · unfold plans
    rw [hs]
    constructor <;> rintro ⟨⟩ <;> rfl
  · refine iff_of_false (fun h => he ((ends_plans hs).error e h)) ?_
    rintro ⟨⟩

/-- **The failures of a compilation are closed.** Whatever the specification, the catalog and the
start facts, the plans fail if there are more or fewer start facts than given labels, or else at the
first start fact of another type, or else with a label that is not bound, and in no other way. The
pages, whatever the bookmarks and the limit, fail as the plans do, or else with an edge that is not
connected or a group without edges. -/
theorem failures_closed (spec : Specification) (schema : Schema) (start : List FactReference) :
    (∀ m n, spec.plans schema start = .error (.startCount m n) ↔
      start.length ≠ spec.given.length ∧ m = start.length ∧ n = spec.given.length) ∧
    (∀ index expected actual, spec.plans schema start = .error (.startType index expected actual) ↔
      start.length = spec.given.length ∧ spec.FirstMistyped start index expected actual) ∧
    (∀ e, spec.plans schema start = .error e → (∃ m n, e = .startCount m n) ∨
      (∃ index expected actual, e = .startType index expected actual) ∨
        ∃ name, e = .unknownLabel name) ∧
    ∀ bookmarks limit e, spec.pages schema start bookmarks limit = .error e →
      spec.plans schema start = .error e ∨
        (∃ edge, e = .disconnectedEdge edge) ∨ e = .emptyGroup := by
  refine ⟨fun m n => ?_, fun index expected actual => ?_, fun e h => ?_,
    fun bookmarks limit e h => ?_⟩
  · rw [plans_eq_error_iff (by rintro ⟨_, ⟨⟩⟩), checkStart_eq_count_iff]
  · rw [plans_eq_error_iff (by rintro ⟨_, ⟨⟩⟩), checkStart_eq_type_iff]
  · by_cases he : e.IsUnknownLabel
    · exact Or.inr (Or.inr he)
    · exact (eq_of_checkStart_eq_error ((plans_eq_error_iff he).mp h)).imp_right Or.inl
  · rcases Except.bind_eq_error_iff.mp h with h | ⟨plans, hplans, h⟩
    · exact Or.inl h
    · have hs := (Except.bind_unit_eq_ok_iff.mp hplans).1
      refine Or.inr (show e.IsUnconnected from ?_)
      refine (Except.ends_mapM fun pair hm => ?_).error e h
      obtain ⟨hplan, ho⟩ := List.mem_filter.mp (List.fst_mem_of_mem_zipIdx hm)
      have hne : pair.1.outputs ≠ [] := by simpa using ho
      obtain ⟨bindings, hproceeds⟩ := (ends_plans hs).ok plans hplans pair.1 hplan
      rcases hproceeds.anchored (anchored_initial hs) with hpinned | ⟨hnone, -⟩
      · exact Plan.ends_page hne hpinned _ limit
      · exact absurd hnone hne

end Specification

end FactGraph
