import FactGraph.Proofs.Specification.RoundTrip
import FactGraph.Proofs.Walk.Roles

/-! # Roles that a walk loses

An existential condition only keeps what continues from its own unknown: from the unknown itself or
from an unknown of its block that does. The roles of the other matches of the block are strays;
whatever label they continue from, no walk takes them up.

* `Match.written_eq`: the roles that are written in matches are those that continue from the labels
  around them, and the strays.
* `Specification.traversed_eq_written_iff`: a walk goes through exactly the roles that are written
  if there are no strays. -/

namespace FactGraph

/-! ### Strays -/

/-- A path condition of a match starts from one of some labels. -/
def Match.startsFrom (anchors : List String) (m : Match) : Bool :=
  m.paths.any fun path => decide (path.labelRight ∈ anchors)

mutual

/-- The roles in the block of a condition that do not continue from its unknown. -/
def Condition.strays (scope : Scope) (unknown : Label) : Condition → Multiset RoleDefinition
  | .path _ => 0
  | .existential _ block => Match.strays [unknown.name] scope block

/-- The roles in some matches that continue neither from one of some labels nor from an unknown that
does, and those that do not continue from their unknown in the blocks of the others. -/
def Match.strays (anchors : List String) (scope : Scope) : List Match → Multiset RoleDefinition
  | [] => 0
  | ⟨unknown, conditions⟩ :: rest =>
    if Match.startsFrom anchors ⟨unknown, conditions⟩ then
      Condition.straysAll (scope.bind unknown) unknown conditions +
        Match.strays (unknown.name :: anchors) (scope.bind unknown) rest
    else
      rolesAmong (Match.mentions scope ⟨unknown, conditions⟩) +
        Match.strays anchors (scope.bind unknown) rest

def Condition.straysAll (scope : Scope) (unknown : Label) :
    List Condition → Multiset RoleDefinition
  | [] => 0
  | condition :: rest => condition.strays scope unknown + Condition.straysAll scope unknown rest

end

namespace Specification

/-- The roles that are written in the matches, as often as they are. Projections do not count. -/
def written (spec : Specification) : Multiset RoleDefinition :=
  rolesAmong (Match.mentionsAll (Scope.bindAll [] spec.given) spec.body)

/-- The roles that no walk takes up. -/
def strays (spec : Specification) : Multiset RoleDefinition :=
  Match.strays (spec.given.map Label.name) (Scope.bindAll [] spec.given) spec.body

end Specification

/-! ### Accounts -/

/-- The roles of the path conditions among some conditions on an unknown. -/
def Condition.chained (scope : Scope) (unknown : Label) (conditions : List Condition) :
    Multiset RoleDefinition :=
  ((Match.paths ⟨unknown, conditions⟩).map fun path => rolesAmong (path.mentions scope unknown)).sum

theorem Match.startsFrom_iff {anchors : List String} {unknown : Label}
    {conditions : List Condition} {path : PathCondition}
    (h : Match.paths ⟨unknown, conditions⟩ = [path]) :
    Match.startsFrom anchors ⟨unknown, conditions⟩ = true ↔ path.labelRight ∈ anchors := by
  simp [Match.startsFrom, h]

theorem sum_ite_add {anchors : Finset String} {label : String} {more : Multiset RoleDefinition}
    {f : String → Multiset RoleDefinition} :
    ∑ a ∈ anchors, ((if a = label then more else 0) + f a) =
      (if label ∈ anchors then more else 0) + ∑ a ∈ anchors, f a := by
  rw [Finset.sum_add_distrib, Finset.sum_ite_eq']

mutual

/-- The roles in the block of a condition become the roles of its obligations, or strays. -/
theorem Condition.written_eq : ∀ {condition : Condition} {scope : Scope} {unknown : Label}
    {obligations : List Obligation}, scope.type? unknown.name = some unknown.type →
    condition.check scope unknown = .ok () →
    condition.obligations scope unknown = .ok obligations →
    rolesAmong (condition.mentions scope unknown) =
      Condition.chained scope unknown [condition] +
        (Obligation.traversedAll unknown.type obligations + condition.strays scope unknown)
  | .path path, scope, unknown, obligations, _, _, ho => by
    obtain rfl : [] = obligations := Except.ok.inj ho
    simp [Condition.mentions, Condition.chained, Match.paths, Condition.strays,
      Obligation.traversedAll]
  | .existential holds block, scope, unknown, obligations, hu, hc, ho => by
    obtain ⟨inner, hc⟩ := Condition.check_existential_eq_ok_iff.mp hc
    obtain ⟨walks, child, hw, hchild, hplain, rfl⟩ :=
      Condition.obligations_existential_eq_ok_iff.mp ho
    -- the walk from the unknown has no obligations, so its steps are all it goes through
    have htype : unknown.type = child.type :=
      Option.some_inj.mp (hu.symm.trans (Match.type?_of_walks hc hw hchild))
    have hnone : child.obligations = [] := by
      obtain ⟨type, steps, others⟩ := child
      simpa [Walk.hasObligations] using (Bool.or_eq_false_iff.mp hplain).1
    have hsum : ∑ a ∈ [unknown.name].toFinset, walks.traversed a = child.traversed := by
      rw [List.toFinset_cons, List.toFinset_nil, insert_empty_eq, Finset.sum_singleton,
        Continuations.traversed_of_walk? hchild]
    have hblock := @Match.written_eq block scope inner walks [unknown.name] hc hw
      (by simp [hu])
    rw [Condition.mentions, hblock, hsum, Walk.traversed_eq, hnone,
      Obligation.traversedAll_map, htype, Condition.strays]
    simp only [Condition.chained, Match.paths, List.filterMap_cons, List.filterMap_nil,
      List.map_nil, List.sum_nil, Obligation.traversedAll, add_zero, zero_add]
    exact add_comm _ _

/-- The roles in some conditions become those of the obligations that they add to a walk, those of
the chain of a path condition, or strays. -/
theorem Condition.writtenAll_eq : ∀ {conditions : List Condition} {scope : Scope}
    {unknown : Label} {walk walk' : Walk}, scope.type? unknown.name = some unknown.type →
    walk.type = unknown.type → Condition.checkAll scope unknown conditions = .ok () →
    Condition.obligeAll scope unknown.name walk conditions = .ok walk' →
    walk.traversed + rolesAmong (Condition.mentionsAll scope unknown conditions) =
      Condition.chained scope unknown conditions +
        (walk'.traversed + Condition.straysAll scope unknown conditions)
  | [], _, _, _, _, _, _, _, ho => by
    cases ho
    simp [Condition.mentionsAll, Condition.chained, Match.paths, Condition.straysAll]
  | condition :: rest, scope, unknown, walk, walk', hu, ht, hc, ho => by
    obtain ⟨hc, hrest⟩ := Except.bind_unit_eq_ok_iff.mp hc
    obtain ⟨next, hnext, ho⟩ := Except.bind_eq_ok_iff.mp ho
    obtain ⟨obligations, hobligations, rfl⟩ := Condition.oblige_eq_ok_iff.mp hnext
    have hfirst := Condition.written_eq hu hc hobligations
    have hothers := Condition.writtenAll_eq hu (by exact ht) hrest ho
    have hchained : Condition.chained scope unknown (condition :: rest) =
        Condition.chained scope unknown [condition] + Condition.chained scope unknown rest := by
      simp only [Condition.chained]
      cases condition <;> simp [Match.paths]
    rw [Walk.traversed_oblige, ht] at hothers
    calc walk.traversed + rolesAmong (Condition.mentionsAll scope unknown (condition :: rest))
        = walk.traversed + (Condition.chained scope unknown [condition] +
            (Obligation.traversedAll unknown.type obligations + condition.strays scope unknown) +
              rolesAmong (Condition.mentionsAll scope unknown rest)) := by
          rw [Condition.mentionsAll, rolesAmong_append, hfirst]
      _ = Condition.chained scope unknown [condition] + condition.strays scope unknown +
            (walk.traversed + Obligation.traversedAll unknown.type obligations +
              rolesAmong (Condition.mentionsAll scope unknown rest)) := by abel
      _ = Condition.chained scope unknown (condition :: rest) +
            (walk'.traversed + Condition.straysAll scope unknown (condition :: rest)) := by
          rw [hothers, hchained, Condition.straysAll]
          abel

/-- **Every role that is written in matches continues from one of the labels around them, or it is a
stray.** -/
theorem Match.written_eq : ∀ {block : List Match} {scope scope' : Scope} {walks : Continuations}
    {anchors : List String}, Match.checkAll scope block = .ok scope' →
    Match.walks scope block = .ok walks → (∀ a ∈ anchors, scope.type? a ≠ none) →
    rolesAmong (Match.mentionsAll scope block) =
      Match.strays anchors scope block + ∑ a ∈ anchors.toFinset, walks.traversed a
  | [], _, _, _, _, _, hw, _ => by
    cases hw
    simp [Match.mentionsAll, Match.strays, Continuations.traversed, Continuations.walk?]
  | ⟨unknown, conditions⟩ :: rest, scope, scope', walks, anchors, hc, hw, hanchors => by
    obtain ⟨hnew, hone, hconds, hrest⟩ := Match.checkAll_cons_eq_ok_iff.mp hc
    obtain ⟨behind, path, next, hb, hpaths, hnext, hlead⟩ := Match.walks_cons_eq_ok hw
    obtain ⟨type, htype, hmore⟩ := PathCondition.traversed_of_lead hlead
    have hmem : path ∈ Match.paths ⟨unknown, conditions⟩ := by simp [hpaths]
    have hcheck := Condition.checkAll_eq_ok_iff.mp hconds _ (Match.mem_paths_iff.mp hmem)
    obtain ⟨hne, type', htype', hends⟩ := PathCondition.check_eq_ok_iff.mp hcheck
    obtain rfl : type = type' := Option.some_inj.mp (htype.symm.trans htype')
    have hu : (scope.bind unknown).type? unknown.name = some unknown.type := Scope.type?_bind_self
    have hnexttype : next.type = unknown.type :=
      (Condition.type_of_obligeAll hnext).trans (Match.type_getD hrest hb)
    have hfresh : unknown.name ∉ anchors := fun hm => hanchors _ hm hnew
    have hvisible : ∀ a ∈ anchors, (scope.bind unknown).type? a ≠ none := fun a ha => by
      rw [Scope.type?_bind_of_ne (fun he => hfresh (he ▸ ha))]
      exact hanchors a ha
    -- the roles in the conditions, and those that continue from the unknown
    have hchain : behind.traversed unknown.name +
          rolesAmong (Condition.mentionsAll (scope.bind unknown) unknown conditions) =
        (path.chain type next).traversed +
          Condition.straysAll (scope.bind unknown) unknown conditions := by
      have hall := Condition.writtenAll_eq hu (Match.type_getD hrest hb) hconds hnext
      rw [Continuations.traversed_getD] at hall
      rw [hall, PathCondition.traversed_chain htype hnexttype hends]
      simp only [Condition.chained, hpaths, List.map_cons, List.map_nil, List.sum_cons,
        List.sum_nil, add_zero]
      abel
    -- what continues from the other labels
    have hwalks : ∑ a ∈ anchors.toFinset, walks.traversed a =
        (if path.labelRight ∈ anchors.toFinset then (path.chain type next).traversed else 0) +
          ∑ a ∈ anchors.toFinset, behind.traversed a := by
      rw [← sum_ite_add]
      refine Finset.sum_congr rfl fun a ha => ?_
      have hn : a ≠ unknown.name := fun he => hfresh (he ▸ List.mem_toFinset.mp ha)
      rw [hmore, Continuations.traversed_without_of_ne hn]
    rw [Match.mentionsAll, rolesAmong_append, Match.strays, hwalks]
    by_cases hm : path.labelRight ∈ anchors
    · -- the match continues from a label around it, and what comes behind from its unknown, too
      have ih := @Match.written_eq rest (scope.bind unknown) scope' behind
        (unknown.name :: anchors) hrest hb (List.forall_mem_cons.mpr ⟨by simp, hvisible⟩)
      rw [List.toFinset_cons, Finset.sum_insert (by simpa using hfresh)] at ih
      rw [if_pos ((Match.startsFrom_iff hpaths).mpr hm), if_pos (List.mem_toFinset.mpr hm), ih,
        Match.mentions,
        rolesAmong_cons_type]
      calc _ = behind.traversed unknown.name +
            rolesAmong (Condition.mentionsAll (scope.bind unknown) unknown conditions) +
              (Match.strays (unknown.name :: anchors) (scope.bind unknown) rest +
                ∑ a ∈ anchors.toFinset, behind.traversed a) := by abel
        _ = _ := by
          rw [hchain]
          abel
    · -- nothing takes the match up, nor what continues from its unknown
      have ih := Match.written_eq hrest hb hvisible
      rw [if_neg (fun h => hm ((Match.startsFrom_iff hpaths).mp h)), 
        if_neg (fun h => hm (List.mem_toFinset.mp h)), ih, zero_add, add_assoc]

end

/-! ### Specifications -/

namespace Specification

variable {spec : Specification}

/-- The roles that are written are those that the walk goes through, and the strays. -/
theorem written_eq_traversed_add_strays (h : spec.check = .ok ()) {walk : Walk}
    (hw : spec.walk = .ok walk) : spec.written = walk.traversed + spec.strays := by
  obtain ⟨labels, body, projections⟩ := spec
  unfold Specification.walk at hw
  match labels, hw with
  | [given], hw =>
    obtain ⟨walks, hwalks, hw⟩ := Except.bind_eq_ok_iff.mp hw
    cases hw
    obtain ⟨_, hd, h⟩ := Except.bind_eq_ok_iff.mp h
    obtain ⟨_, hbody, -⟩ := Except.bind_eq_ok_iff.mp h
    cases hd
    have hsum := @Match.written_eq body (Scope.bind [] given) _ walks [given.name] hbody hwalks
      (by simp [Scope.type?_bind_self])
    rw [Continuations.traversed_getD, add_comm]
    refine hsum.trans ?_
    rw [List.toFinset_cons, List.toFinset_nil, insert_empty_eq, Finset.sum_singleton]
    rfl
  | [], hw => cases hw
  | _ :: _ :: _, hw => cases hw

/-- **A walk goes through exactly the roles that are written in the matches if there are no
strays.** -/
theorem traversed_eq_written_iff (h : spec.Accepted) {walk : Walk} (hw : spec.walk = .ok walk) :
    walk.traversed = spec.written ↔ spec.strays = 0 := by
  rw [written_eq_traversed_add_strays h.check hw, left_eq_add]

theorem accepted_withDeletion : (projectsWhere true [deletion]).Accepted :=
  accepted_of_isPrintable rfl rfl

theorem traversed_eq_written_withDeletion :
    Walk.traversed ⟨"Root", [⟨.successor, "root", ⟨"Project", [],
        [⟨true, ⟨.successor, "project", .ofType "Deleted"⟩⟩]⟩⟩], []⟩ =
      (projectsWhere true [deletion]).written :=
  (traversed_eq_written_iff accepted_withDeletion rfl).mpr (by rfl)

/-- The events of a root. -/
def event : Match := referring "e" "Event" "root" "root" "Root"

theorem accepted_withDeletionAndEvent : (projectsWhere true [deletion, event]).Accepted :=
  accepted_of_isPrintable rfl rfl

/-- **Not every walk goes through all roles that are written.** The events of the root are demanded,
but no walk leads to them. -/
theorem not_forall_traversed_eq_written : ¬ ∀ (spec : Specification) (walk : Walk), spec.Accepted →
    spec.walk = .ok walk → walk.traversed = spec.written := by
  intro h
  have heq := h _ _ accepted_withDeletionAndEvent rfl
  exact absurd heq (by decide)

end Specification

end FactGraph
