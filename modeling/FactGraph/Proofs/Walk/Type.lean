import FactGraph.Proofs.Specification.Scope
import FactGraph.Walk.Derive

/-! # The types at which walks start

In a well-formed specification a walk that continues from a label starts at the type of that label,
since both sides of a path condition arrive at one type. So the walk of the specification starts at
the type of its given.

* `Match.type?_of_walks`: the walks from the labels of matches.
* `Specification.type_of_walk`: the walk of a specification. -/

namespace FactGraph

/-! ### Paths -/

namespace Walk

theorem type_descending : ∀ {roles : List Role} {next : Walk},
    (descending roles next).type = endType next.type roles
  | [], _ => rfl
  | role :: rest, next => by
    rw [endType_cons]
    exact @type_descending rest _

theorem type_ascending {type : String} {roles : List Role} {next : Walk}
    (h : next.type = endType type roles) : (ascending type roles next).type = type := by
  cases roles with
  | nil => exact h
  | cons role rest => rfl

theorem type_merge {left right merged : Walk} (h : left.merge right = .ok merged) :
    merged.type = left.type := by
  unfold merge at h
  split_ifs at h
  cases h
  rfl

end Walk

/-! ### Continuations -/

namespace Continuations

variable {walks : Continuations} {label name : String} {walk : Walk}

theorem walk?_without : (walks.without label).walk? name =
    if name = label then none else walks.walk? name := by
  unfold walk? without
  induction walks with
  | nil => simp
  | cons entry rest ih =>
    obtain ⟨key, other⟩ := entry
    by_cases hk : key = label
    · subst hk
      rw [List.filter_cons_of_neg (by simp), ih, List.lookup_cons]
      by_cases hn : name = key
      · simp [hn]
      · simp [hn, beq_eq_false_iff_ne.mpr hn]
    · rw [List.filter_cons_of_pos (by simp [hk]), List.lookup_cons, List.lookup_cons, ih]
      by_cases hn : name = key
      · subst hn
        simp [hk]
      · simp [beq_eq_false_iff_ne.mpr hn]

theorem walk?_insert : (walks.insert label walk).walk? name =
    if name = label then some walk else walks.walk? name := by
  unfold insert
  have h : (walks.without label).walk? name = _ := walk?_without
  unfold walk? at h ⊢
  rw [List.lookup_cons, h]
  by_cases hn : name = label
  · simp [hn]
  · simp [hn, beq_eq_false_iff_ne.mpr hn]

end Continuations

/-! ### Matches -/

theorem Match.path_mem_of_onlyPath {m : Match} {path : PathCondition}
    (h : m.onlyPath = .ok path) : Condition.path path ∈ m.conditions := by
  have hone : m.paths = [path] := by
    unfold Match.onlyPath Match.path? at h
    split at h
    · rename_i hp
      split at hp
      · cases hp
        cases h
        assumption
      · cases hp
    · cases h
  have hmem : path ∈ m.paths := by simp [hone]
  simp only [Match.paths, List.mem_filterMap] at hmem
  obtain ⟨condition, hc, he⟩ := hmem
  cases condition <;> cases he
  exact hc

theorem Condition.type_of_oblige {scope : Scope} {unknown : String} {walk walk' : Walk}
    {condition : Condition} (h : condition.oblige scope unknown walk = .ok walk') :
    walk'.type = walk.type := by
  cases condition with
  | path _ =>
    cases h
    rfl
  | existential holds block =>
    obtain ⟨walks, -, h⟩ := Except.bind_eq_ok_iff.mp h
    rcases hu : walks.walk? unknown with _ | child <;> simp only [hu] at h
    · cases h
    · split_ifs at h
      cases h
      rfl

theorem Condition.type_of_obligeAll {scope : Scope} {unknown : String} :
    ∀ {conditions : List Condition} {walk walk' : Walk},
      Condition.obligeAll scope unknown walk conditions = .ok walk' → walk'.type = walk.type
  | [], _, _, h => by
    cases h
    rfl
  | _ :: _, _, _, h => by
    obtain ⟨_, hc, hr⟩ := Except.bind_eq_ok_iff.mp h
    rw [Condition.type_of_obligeAll hr, Condition.type_of_oblige hc]

/-- The label that a path condition starts from keeps its type; the other walks stay. -/
theorem PathCondition.type?_of_lead {scope : Scope} {unknown : Label} {path : PathCondition}
    {next : Walk} {walks walks' : Continuations} (hc : path.check scope unknown = .ok ())
    (hn : next.type = unknown.type) (h : path.lead scope next walks = .ok walks') {label : String}
    {walk : Walk} (hw : walks'.walk? label = some walk) :
    walks.walk? label = some walk ∨
      label = path.labelRight ∧ scope.type? label = some walk.type := by
  obtain ⟨-, type, ht, he⟩ := PathCondition.check_eq_ok_iff.mp hc
  unfold PathCondition.lead at h
  simp only [ht] at h
  have hlead : (Walk.ascending type path.rolesRight (Walk.descending path.rolesLeft next)).type =
      type := Walk.type_ascending (by rw [Walk.type_descending, hn, he])
  obtain ⟨merged, hm, rfl⟩ : ∃ merged : Walk, merged.type = type ∧
      walks.insert path.labelRight merged = walks' := by
    rcases hother : walks.walk? path.labelRight with _ | other <;>
      simp only [hother, Except.bind_eq_ok_iff, Except.pure_eq_ok_iff] at h
    · obtain ⟨merged, hm, h⟩ := h
      cases hm
      exact ⟨_, hlead, h⟩
    · obtain ⟨merged, hm, h⟩ := h
      exact ⟨merged, (Walk.type_merge hm).trans hlead, h⟩
  rw [Continuations.walk?_insert] at hw
  split_ifs at hw with hl
  · cases hw
    exact Or.inr ⟨hl, by rw [hl, ht, hm]⟩
  · exact Or.inl hw

/-- **A walk that continues from a label starts at the type of the label.** -/
theorem Match.type?_of_walks : ∀ {matches' : List Match} {scope scope' : Scope}
    {walks : Continuations}, Match.checkAll scope matches' = .ok scope' →
    Match.walks scope matches' = .ok walks → ∀ {label : String} {walk : Walk},
      walks.walk? label = some walk → scope.type? label = some walk.type
  | [], _, _, _, _, hw, _, _, hl => by
    cases hw
    cases hl
  | ⟨unknown, conditions⟩ :: rest, scope, scope', walks, hc, hw, label, walk, hl => by
    obtain ⟨hnew, hone, hconds, hrest⟩ := Match.checkAll_cons_eq_ok_iff.mp hc
    rw [Match.walks] at hw
    simp only [Except.bind_eq_ok_iff] at hw
    obtain ⟨behind, hb, path, hpath, next, hnext, hlead⟩ := hw
    have ih : ∀ {label walk}, behind.walk? label = some walk →
        (scope.bind unknown).type? label = some walk.type := Match.type?_of_walks hrest hb
    have htype : next.type = unknown.type := by
      rw [Condition.type_of_obligeAll hnext]
      rcases hu : behind.walk? unknown.name with _ | other
      · rfl
      · simpa using (ih hu).symm
    have hmem : Condition.path path ∈ conditions := Match.path_mem_of_onlyPath hpath
    have hcheck := Condition.checkAll_eq_ok_iff.mp hconds _ hmem
    have hne := (PathCondition.check_eq_ok_iff.mp hcheck).1
    rcases PathCondition.type?_of_lead hcheck htype hlead hl with h | ⟨rfl, ht⟩
    · rw [Continuations.walk?_without] at h
      split_ifs at h with hlu
      rw [← ih h, Scope.type?_bind_of_ne hlu]
    · rwa [Scope.type?_bind_of_ne hne] at ht

/-- **The walk of a specification starts at the type of its given.** -/
theorem Specification.type_of_walk {spec : Specification} {walk : Walk} (hc : spec.check = .ok ())
    (hw : spec.walk = .ok walk) : ∃ given, spec.given = [given] ∧ walk.type = given.type := by
  obtain ⟨labels, body, projections⟩ := spec
  unfold Specification.walk at hw
  match labels, hw with
  | [given], hw =>
    refine ⟨given, rfl, ?_⟩
    simp only [Except.bind_eq_ok_iff, Except.pure_eq_ok_iff] at hw
    obtain ⟨walks, hws, rfl⟩ := hw
    simp only [Specification.check, Scope.declareAll, Scope.declare, Scope.type?, List.lookup_nil,
      Except.bind_eq_ok_iff] at hc
    obtain ⟨_, ⟨_, h, hs⟩, scope', hbody, -⟩ := hc
    cases h
    cases hs
    rcases hg : walks.walk? given.name with _ | walk
    · rfl
    · simpa using (Match.type?_of_walks hbody hws hg).symm
  | [], hw => cases hw
  | _ :: _ :: _, hw => cases hw

end FactGraph
