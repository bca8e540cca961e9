import FactGraph.Proofs.Walk.Strays

/-! # Specifications with and without a walk

A well-formed specification with one given has a walk unless one of its existential conditions
stands in the way: one that does not continue from its unknown, or one that has conditions inside.
Nothing else can go wrong: its matches have one path condition each, the labels behind them are
visible, and all walks from a label start at the type of the label. The walk goes only through
roles that the specification mentions, in the direction in which it mentions them.

* `Match.error_of_walks`: why matches have no walks.
* `Specification.mem_roles_of_traversed`: which roles a walk goes through.
* `Specification.walk_outcome`: both for whole specifications. -/

namespace FactGraph

/-! ### Errors -/

/-- The error is about an existential condition. -/
def WalkError.IsOfCondition (error : WalkError) : Prop :=
  ∃ unknown, error = .detachedCondition unknown ∨ error = .nestedCondition unknown

theorem Match.exists_onlyPath {m : Match} (h : m.paths.length = 1) :
    ∃ path, m.onlyPath = .ok path := by
  obtain ⟨path, hp⟩ := List.length_eq_one_iff.mp h
  exact ⟨path, by rw [Match.onlyPath, Match.path?, hp]⟩

/-- A path condition leads to its unknown if the walk with which its own is merged starts at the
type of its label. -/
theorem PathCondition.exists_lead {scope : Scope} {unknown : Label} {path : PathCondition}
    {next : Walk} {walks : Continuations} (hc : path.check scope unknown = .ok ())
    (hn : next.type = unknown.type)
    (hw : ∀ other, walks.walk? path.labelRight = some other →
      scope.type? path.labelRight = some other.type) :
    ∃ walks', path.lead scope next walks = .ok walks' := by
  obtain ⟨-, type, ht, he⟩ := PathCondition.check_eq_ok_iff.mp hc
  have hchain : (path.chain type next).type = type :=
    Walk.type_ascending (by rw [Walk.type_descending, hn, he])
  unfold PathCondition.lead
  rw [ht]
  rcases hother : walks.walk? path.labelRight with _ | other
  · exact ⟨_, rfl⟩
  · have hmerge : (path.chain type next).type = other.type := by
      rw [hchain]
      exact Option.some_inj.mp (ht.symm.trans (hw other hother))
    refine ⟨walks.insert path.labelRight ⟨(path.chain type next).type,
      (path.chain type next).steps ++ other.steps,
      (path.chain type next).obligations ++ other.obligations⟩, ?_⟩
    show (path.chain type next).merge other >>= _ = _
    rw [Walk.merge, if_pos hmerge]
    rfl

mutual

/-- A condition that adds no obligations is one that the error is about, or there is such a one in
its block. -/
theorem Condition.error_of_oblige : ∀ {condition : Condition} {scope : Scope} {unknown : Label}
    {walk : Walk} {e : WalkError}, condition.check scope unknown = .ok () →
    condition.oblige scope unknown.name walk = .error e → e.IsOfCondition
  | .path _, _, _, _, _, _, he => by cases he
  | .existential holds block, scope, unknown, walk, e, hc, he => by
    obtain ⟨inner, hc⟩ := Condition.check_existential_eq_ok_iff.mp hc
    rcases Except.bind_eq_error_iff.mp he with he | ⟨walks, -, he⟩
    · exact Match.error_of_walks hc he
    · rcases hu : walks.walk? unknown.name with _ | child <;> simp only [hu] at he
      · cases he
        exact ⟨unknown.name, Or.inl rfl⟩
      · split_ifs at he
        · cases he
          exact ⟨unknown.name, Or.inr rfl⟩
        · cases he

theorem Condition.error_of_obligeAll : ∀ {conditions : List Condition} {scope : Scope}
    {unknown : Label} {walk : Walk} {e : WalkError},
    Condition.checkAll scope unknown conditions = .ok () →
    Condition.obligeAll scope unknown.name walk conditions = .error e → e.IsOfCondition
  | [], _, _, _, _, _, he => by cases he
  | condition :: rest, scope, unknown, walk, e, hc, he => by
    obtain ⟨hc, hrest⟩ := Except.bind_unit_eq_ok_iff.mp hc
    rcases Except.bind_eq_error_iff.mp he with he | ⟨next, -, he⟩
    · exact Condition.error_of_oblige hc he
    · exact Condition.error_of_obligeAll hrest he

/-- **If well-formed matches have no walks, the error is about an existential condition.** -/
theorem Match.error_of_walks : ∀ {block : List Match} {scope scope' : Scope} {e : WalkError},
    Match.checkAll scope block = .ok scope' → Match.walks scope block = .error e →
    e.IsOfCondition
  | [], _, _, _, _, he => by cases he
  | ⟨unknown, conditions⟩ :: rest, scope, scope', e, hc, he => by
    obtain ⟨-, hone, hconds, hrest⟩ := Match.checkAll_cons_eq_ok_iff.mp hc
    obtain ⟨path, hpath⟩ := Match.exists_onlyPath hone
    rw [Match.walks] at he
    rcases Except.bind_eq_error_iff.mp he with he | ⟨behind, hb, he⟩
    · exact Match.error_of_walks hrest he
    rw [hpath] at he
    rcases Except.bind_eq_error_iff.mp he with he | ⟨_, hp, he⟩
    · cases he
    cases hp
    rcases Except.bind_eq_error_iff.mp he with he | ⟨next, hnext, he⟩
    · exact Condition.error_of_obligeAll hconds he
    -- the path condition itself never fails: all walks from its label start at one type
    have hcheck := Condition.checkAll_eq_ok_iff.mp hconds _ (Match.path_mem_of_onlyPath hpath)
    have htype : next.type = unknown.type :=
      (Condition.type_of_obligeAll hnext).trans (Match.type_getD hrest hb)
    have hothers : ∀ other, (behind.without unknown.name).walk? path.labelRight = some other →
        (scope.bind unknown).type? path.labelRight = some other.type := by
      intro other ho
      rw [Continuations.walk?_without] at ho
      split_ifs at ho
      exact Match.type?_of_walks hrest hb ho
    obtain ⟨walks, hlead⟩ := PathCondition.exists_lead hcheck htype hothers
    rw [show path.lead (scope.bind unknown) next _ = _ from he] at hlead
    cases hlead

end

/-! ### Roles -/

namespace Specification

variable {spec : Specification}

/-- The roles that are written in the matches are among those of the specification. -/
theorem mem_roles_of_written {role : RoleDefinition} (h : role ∈ spec.written) :
    role ∈ spec.roles := by
  unfold written rolesAmong at h
  unfold roles mentions
  rw [List.mem_eraseDups, List.filterMap_append, List.filterMap_append, List.mem_append,
    List.mem_append]
  exact Or.inl (Or.inr (Multiset.mem_coe.mp h))

/-- **A walk goes only through roles that the specification mentions.** -/
theorem mem_roles_of_traversed (h : spec.check = .ok ()) {walk : Walk} (hw : spec.walk = .ok walk)
    {role : RoleDefinition} (hr : role ∈ walk.traversed) : role ∈ spec.roles := by
  refine mem_roles_of_written ?_
  rw [written_eq_traversed_add_strays h hw]
  exact Multiset.mem_add.mpr (Or.inl hr)

/-! ### Whole specifications -/

/-- **A well-formed specification has a well-typed walk, or it lacks one for a known reason.** With
one given it has a walk from the type of the given, each step of which goes through a role of the
specification from the type where it starts to the type where it ends; or the error is about an
existential condition. Otherwise the error tells the number of givens. -/
theorem walk_outcome (h : spec.check = .ok ()) :
    (∃ given, spec.given = [given] ∧
      ((∃ walk, spec.walk = .ok walk ∧ walk.type = given.type ∧
          ∀ role ∈ walk.traversed, role ∈ spec.roles) ∨
        ∃ e, spec.walk = .error e ∧ e.IsOfCondition)) ∨
    spec.given.length ≠ 1 ∧ spec.walk = .error (.givenCount spec.given.length) := by
  rcases hgiven : spec.given with _ | ⟨given, _ | ⟨other, more⟩⟩
  · exact Or.inr ⟨by simp, by rw [Specification.walk, hgiven]⟩
  · refine Or.inl ⟨given, rfl, ?_⟩
    rcases hw : spec.walk with e | walk
    · refine Or.inr ⟨e, rfl, ?_⟩
      obtain ⟨scope, hd, hc⟩ := Except.bind_eq_ok_iff.mp h
      obtain ⟨scope', hbody, -⟩ := Except.bind_eq_ok_iff.mp hc
      rw [hgiven] at hd
      cases hd
      rw [Specification.walk, hgiven] at hw
      rcases Except.bind_eq_error_iff.mp hw with he | ⟨walks, -, he⟩
      · exact Match.error_of_walks hbody he
      · cases he
    · obtain ⟨given', hg, ht⟩ := type_of_walk h hw
      rw [hgiven] at hg
      cases hg
      exact Or.inl ⟨walk, rfl, ht, fun role hr => mem_roles_of_traversed h hw hr⟩
  · exact Or.inr ⟨by simp, by rw [Specification.walk, hgiven]⟩

/-- The walk to the projects that are not deleted. -/
def withoutDeletionWalk : Walk :=
  ⟨"Root", [⟨.successor, "root", ⟨"Project", [],
    [⟨false, ⟨.successor, "project", .ofType "Deleted"⟩⟩]⟩⟩], []⟩

theorem walk_outcome_withoutDeletion : (projectsWhere false [deletion]).check = .ok () ∧
    (projectsWhere false [deletion]).walk = .ok withoutDeletionWalk ∧
    withoutDeletionWalk.type = "Root" ∧ ∀ role ∈ withoutDeletionWalk.traversed,
      role ∈ (projectsWhere false [deletion]).roles := by
  have hcheck : (projectsWhere false [deletion]).check = .ok () := rfl
  have hwalk : (projectsWhere false [deletion]).walk = .ok withoutDeletionWalk := rfl
  refine ⟨hcheck, hwalk, ?_⟩
  rcases walk_outcome hcheck with ⟨given, hg, ⟨walk, hw, ht, hr⟩ | ⟨e, he, -⟩⟩ | ⟨-, he⟩
  · cases hg
    cases hwalk.symm.trans hw
    exact ⟨ht, hr⟩
  · cases hwalk.symm.trans he
  · cases hwalk.symm.trans he

end Specification

end FactGraph
