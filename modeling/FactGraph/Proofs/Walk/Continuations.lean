import FactGraph.Proofs.Walk.Type

/-! # What continues from labels

The walks of matches, taken apart: the steps that continue from each label, and what a match in
front of others changes about them. The obligations that a condition adds do not depend on the walk
to which it adds them.

* `PathCondition.lead_eq_ok`: a path condition moves what continues from its unknown behind the
  chain of its roles.
* `Match.walks_cons_eq_ok`: how the walks of a match in front of others come about.
* `Condition.oblige_eq_ok_iff`: a condition appends its obligations, and changes nothing else. -/

namespace FactGraph

/-! ### Steps from a label -/

namespace Continuations

/-- The steps that continue from a label. -/
def steps (walks : Continuations) (label : String) : List Step :=
  ((walks.walk? label).map Walk.steps).getD []

/-- Some walk continues from a label. -/
def Has (walks : Continuations) (label : String) : Prop := (walks.walk? label).isSome = true

variable {walks : Continuations} {label name : String} {walk : Walk}

theorem steps_of_walk? (h : walks.walk? label = some walk) : walks.steps label = walk.steps := by
  simp [steps, h]

theorem steps_getD (type : String) :
    ((walks.walk? label).getD (Walk.ofType type)).steps = walks.steps label := by
  unfold steps
  rcases walks.walk? label with _ | walk <;> rfl

theorem steps_without : (walks.without label).steps name =
    if name = label then [] else walks.steps name := by
  unfold steps
  rw [walk?_without]
  split_ifs <;> rfl

theorem has_without_iff : (walks.without label).Has name ↔ name ≠ label ∧ walks.Has name := by
  unfold Has
  rw [walk?_without]
  split_ifs with h <;> simp [h]

end Continuations

/-! ### Path conditions -/

/-- The chain of roles by which a path condition on an unknown leads from a label of a type to what
continues from the unknown. -/
def PathCondition.chain (path : PathCondition) (type : String) (next : Walk) : Walk :=
  Walk.ascending type path.rolesRight (Walk.descending path.rolesLeft next)

/-- What relates walks whenever it relates those behind a single step relates the chains of a path
condition. -/
theorem PathCondition.rel_chain {R : Walk → Walk → Prop}
    (hstep : ∀ {walk other : Walk}, R walk other → ∀ type direction role,
      R ⟨type, [⟨direction, role, walk⟩], []⟩ ⟨type, [⟨direction, role, other⟩], []⟩)
    {walk other : Walk} (h : R walk other) (path : PathCondition) (type : String) :
    R (path.chain type walk) (path.chain type other) := by
  have hdown : ∀ (roles : List Role) {walk other : Walk}, R walk other →
      R (Walk.descending roles walk) (Walk.descending roles other) := fun roles => by
    induction roles with
    | nil => exact id
    | cons role rest ih => exact fun h => ih (hstep h role.target .successor role.name)
  have hup : ∀ (roles : List Role) (type : String) {walk other : Walk}, R walk other →
      R (Walk.ascending type roles walk) (Walk.ascending type roles other) := fun roles => by
    induction roles with
    | nil => exact fun _ _ _ => id
    | cons role rest ih => exact fun type _ _ h => hstep (ih role.target h) type .predecessor role.name
  exact hup path.rolesRight type (hdown path.rolesLeft h)

/-- What continues from the unknown of a path condition is moved behind the chain of its roles. -/
structure PathCondition.Moves (path : PathCondition) (type : String) (next : Walk)
    (walks walks' : Continuations) : Prop where
  steps : ∀ label, walks'.steps label = if label = path.labelRight
    then (path.chain type next).steps ++ walks.steps label else walks.steps label
  has : ∀ label, walks'.Has label ↔ label = path.labelRight ∨ walks.Has label

/-- The walk from the label of a path condition is replaced by one that has the chain of its roles
in front. -/
theorem PathCondition.exists_merged_of_lead {scope : Scope} {path : PathCondition} {next : Walk}
    {walks walks' : Continuations} (h : path.lead scope next walks = .ok walks') :
    ∃ type merged, scope.type? path.labelRight = some type ∧
      (walks.walk? path.labelRight = none ∧ path.chain type next = merged ∨
        ∃ other, walks.walk? path.labelRight = some other ∧
          (path.chain type next).merge other = .ok merged) ∧
      walks.insert path.labelRight merged = walks' := by
  unfold PathCondition.lead at h
  rcases ht : scope.type? path.labelRight with _ | type <;> simp only [ht] at h
  · cases h
  rcases hother : walks.walk? path.labelRight with _ | other <;>
    simp only [hother, Except.bind_eq_ok_iff, Except.pure_eq_ok_iff] at h <;>
    obtain ⟨merged, hm, h⟩ := h
  · exact ⟨type, merged, rfl, Or.inl ⟨rfl, Except.ok.inj hm⟩, h⟩
  · exact ⟨type, merged, rfl, Or.inr ⟨other, rfl, hm⟩, h⟩

/-- **A path condition moves what continues from its unknown behind the chain of its roles.** -/
theorem PathCondition.lead_eq_ok {scope : Scope} {path : PathCondition} {next : Walk}
    {walks walks' : Continuations} (h : path.lead scope next walks = .ok walks') :
    ∃ type, scope.type? path.labelRight = some type ∧ path.Moves type next walks walks' := by
  obtain ⟨type, merged, ht, hm, rfl⟩ := PathCondition.exists_merged_of_lead h
  refine ⟨type, ht, fun label => ?_, fun label => ?_⟩
  · have hmerged : merged.steps =
        (path.chain type next).steps ++ walks.steps path.labelRight := by
      rcases hm with ⟨hnone, rfl⟩ | ⟨other, ho, hm⟩
      · simp [Continuations.steps, hnone]
      · unfold Walk.merge at hm
        split_ifs at hm
        cases hm
        rw [Continuations.steps_of_walk? ho]
    rw [Continuations.steps, Continuations.walk?_insert]
    split_ifs with hl
    · rw [hl]
      exact hmerged
    · rfl
  · unfold Continuations.Has
    rw [Continuations.walk?_insert]
    split_ifs with hl <;> simp [hl]

/-! ### Matches -/

theorem Match.mem_paths_iff {m : Match} {path : PathCondition} :
    path ∈ m.paths ↔ Condition.path path ∈ m.conditions := by
  simp only [Match.paths, List.mem_filterMap]
  constructor
  · rintro ⟨_ | _, hm, he⟩ <;> cases he
    exact hm
  · exact fun hm => ⟨_, hm, rfl⟩

theorem Match.paths_of_onlyPath {m : Match} {path : PathCondition} (h : m.onlyPath = .ok path) :
    m.paths = [path] := by
  unfold Match.onlyPath Match.path? at h
  rcases hp : m.paths with _ | ⟨first, _ | ⟨second, rest⟩⟩ <;> rw [hp] at h <;> cases h
  rfl

/-- **How the walks of a match in front of others come about.** -/
theorem Match.walks_cons_eq_ok {scope : Scope} {unknown : Label} {conditions : List Condition}
    {rest : List Match} {walks : Continuations}
    (h : Match.walks scope (⟨unknown, conditions⟩ :: rest) = .ok walks) :
    ∃ behind path next, Match.walks (scope.bind unknown) rest = .ok behind ∧
      Match.paths ⟨unknown, conditions⟩ = [path] ∧
      Condition.obligeAll (scope.bind unknown) unknown.name
        ((behind.walk? unknown.name).getD (Walk.ofType unknown.type)) conditions = .ok next ∧
      path.lead (scope.bind unknown) next (behind.without unknown.name) = .ok walks := by
  rw [Match.walks] at h
  obtain ⟨behind, hb, h⟩ := Except.bind_eq_ok_iff.mp h
  obtain ⟨path, hpath, h⟩ := Except.bind_eq_ok_iff.mp h
  obtain ⟨next, hnext, h⟩ := Except.bind_eq_ok_iff.mp h
  exact ⟨behind, path, next, hb, Match.paths_of_onlyPath hpath, hnext, h⟩

/-! ### Obligations of conditions -/

/-- The obligations that a condition on a visible unknown adds to a walk that has none. -/
def Condition.obligations (scope : Scope) (unknown : Label) (condition : Condition) :
    Except WalkError (List Obligation) :=
  (condition.oblige scope unknown.name (Walk.ofType unknown.type)).map Walk.obligations

theorem Condition.obligations_existential_eq_ok_iff {scope : Scope} {unknown : Label}
    {holds : Bool} {block : List Match} {obligations : List Obligation} :
    (Condition.existential holds block).obligations scope unknown = .ok obligations ↔
      ∃ walks child, Match.walks scope block = .ok walks ∧
        walks.walk? unknown.name = some child ∧ child.hasObligations = false ∧
        child.steps.map (fun step => ⟨holds, step⟩) = obligations := by
  rw [Condition.obligations, Condition.oblige]
  rcases Match.walks scope block with e | walks
  · simp [bind, Except.bind, Except.map]
  rcases hu : walks.walk? unknown.name with _ | child
  · simp [bind, Except.bind, Except.map, hu]
  · rcases hh : child.hasObligations with _ | _ <;>
      simp [bind, Except.bind, pure, Except.pure, Except.map, hu, hh, Walk.ofType]

/-- **A condition appends its obligations to a walk**, and changes nothing else. -/
theorem Condition.oblige_eq_ok_iff {scope : Scope} {unknown : Label} {condition : Condition}
    {walk walk' : Walk} : condition.oblige scope unknown.name walk = .ok walk' ↔
      ∃ obligations, condition.obligations scope unknown = .ok obligations ∧
        { walk with obligations := walk.obligations ++ obligations } = walk' := by
  cases condition with
  | path path =>
    obtain ⟨type, steps, obligations⟩ := walk
    simp [Condition.obligations, Condition.oblige, Except.map, Walk.ofType]
  | existential holds block =>
    simp only [Condition.obligations_existential_eq_ok_iff]
    rw [Condition.oblige]
    rcases Match.walks scope block with e | walks
    · simp [bind, Except.bind]
    rcases hu : walks.walk? unknown.name with _ | child
    · simp [bind, Except.bind, hu]
    · rcases hh : child.hasObligations with _ | _ <;>
        simp [bind, Except.bind, pure, Except.pure, hu, hh]

theorem Condition.steps_of_obligeAll {scope : Scope} {unknown : Label} :
    ∀ {conditions : List Condition} {walk walk' : Walk},
      Condition.obligeAll scope unknown.name walk conditions = .ok walk' →
        walk'.steps = walk.steps
  | [], _, _, h => by
    cases h
    rfl
  | condition :: rest, walk, walk', h => by
    obtain ⟨next, hc, hr⟩ := Except.bind_eq_ok_iff.mp h
    obtain ⟨obligations, -, rfl⟩ := Condition.oblige_eq_ok_iff.mp hc
    rw [Condition.steps_of_obligeAll hr]

/-- What continues from the unknown of a match starts at the type of the unknown. -/
theorem Match.type_getD {scope scope' : Scope} {unknown : Label} {rest : List Match}
    {behind : Continuations} (hc : Match.checkAll (scope.bind unknown) rest = .ok scope')
    (hb : Match.walks (scope.bind unknown) rest = .ok behind) :
    ((behind.walk? unknown.name).getD (Walk.ofType unknown.type)).type = unknown.type := by
  rcases hu : behind.walk? unknown.name with _ | other
  · rfl
  · simpa using (Match.type?_of_walks hc hb hu).symm

theorem Condition.exists_obligations_of_obligeAll {scope : Scope} {unknown : Label} :
    ∀ {conditions : List Condition} {walk walk' : Walk},
      Condition.obligeAll scope unknown.name walk conditions = .ok walk' →
        ∀ condition ∈ conditions, ∃ obligations,
          condition.obligations scope unknown = .ok obligations
  | [], _, _, _ => by simp
  | condition :: rest, walk, walk', h => by
    obtain ⟨next, hc, hr⟩ := Except.bind_eq_ok_iff.mp h
    obtain ⟨obligations, ho, -⟩ := Condition.oblige_eq_ok_iff.mp hc
    exact List.forall_mem_cons.mpr
      ⟨⟨obligations, ho⟩, Condition.exists_obligations_of_obligeAll hr⟩

end FactGraph
