import FactGraph.Proofs.Specification.RoundTrip
import FactGraph.Proofs.Walk.Meaning

/-! # What obligations mean

An existential condition becomes one obligation for each step by which its block continues from the
unknown. If every path of the block starts from the unknown or inside the block, then the block can
be satisfied exactly where all these steps are possible. So the obligations of a positive condition
mean what the condition does. Those of a negative one forbid each of the steps, while the condition
only forbids all of them together.

* `Match.exists_satisfiedBy_joins_iff_possible`: when a block can be satisfied.
* `Specification.condition_holds_iff_obligations_iff`: exactly when the obligations of a condition
  mean what the condition does. -/

namespace FactGraph

/-! ### Matches at any depth -/

/-- A match stands among some matches, or in a block of theirs, behind the labels of a scope. -/
inductive Match.StandsIn : Scope → List Match → Scope → Match → Prop
  | here {scope : Scope} {m : Match} {rest : List Match} : Match.StandsIn scope (m :: rest) scope m
  | behind {scope inner : Scope} {m other : Match} {rest : List Match}
      (stands : Match.StandsIn (scope.bind other.unknown) rest inner m) :
      Match.StandsIn scope (other :: rest) inner m
  | inside {scope inner : Scope} {m other : Match} {rest block : List Match} {holds : Bool}
      (mem : .existential holds block ∈ other.conditions)
      (stands : Match.StandsIn (scope.bind other.unknown) block inner m) :
      Match.StandsIn scope (other :: rest) inner m

namespace Match.StandsIn

variable {scope inner : Scope} {m : Match} {block : List Match}

theorem check (h : Match.StandsIn scope block inner m) : ∀ {scope' : Scope},
    Match.checkAll scope block = .ok scope' →
      Condition.checkAll (inner.bind m.unknown) m.unknown m.conditions = .ok () := by
  induction h with
  | here => exact fun hc => (Match.checkAll_cons_eq_ok_iff.mp hc).2.2.1
  | behind _ ih => exact fun hc => ih (Match.checkAll_cons_eq_ok_iff.mp hc).2.2.2
  | inside mem _ ih =>
    intro scope' hc
    obtain ⟨-, -, hconds, -⟩ := Match.checkAll_cons_eq_ok_iff.mp hc
    obtain ⟨_, hblock⟩ := Condition.check_existential_eq_ok_iff.mp
      (Condition.checkAll_eq_ok_iff.mp hconds _ mem)
    exact ih hblock

/-- The conditions of a match at any depth have obligations, if the outermost matches have walks. -/
theorem exists_obligations (h : Match.StandsIn scope block inner m) : ∀ {walks : Continuations},
    Match.walks scope block = .ok walks → ∀ condition ∈ m.conditions,
      ∃ obligations, condition.obligations (inner.bind m.unknown) m.unknown = .ok obligations := by
  induction h with
  | @here _ m _ =>
    intro walks hw
    obtain ⟨unknown, conditions⟩ := m
    obtain ⟨_, _, _, -, -, hnext, -⟩ := Match.walks_cons_eq_ok hw
    exact Condition.exists_obligations_of_obligeAll hnext
  | @behind _ _ _ other _ _ ih =>
    intro walks hw
    obtain ⟨unknown, conditions⟩ := other
    obtain ⟨_, -, -, hb, -, -, -⟩ := Match.walks_cons_eq_ok hw
    exact ih hb
  | @inside _ _ _ other _ _ _ mem _ ih =>
    intro walks hw
    obtain ⟨unknown, conditions⟩ := other
    obtain ⟨_, _, _, -, -, hnext, -⟩ := Match.walks_cons_eq_ok hw
    obtain ⟨obligations, ho⟩ := Condition.exists_obligations_of_obligeAll hnext _ mem
    obtain ⟨_, -, hblock, -, -, -⟩ := Condition.obligations_existential_eq_ok_iff.mp ho
    exact ih hblock

end Match.StandsIn

/-! ### Blocks that start from one label -/

/-- Every path of a block starts from a label or from an unknown of the block. -/
def Match.Confined (name : String) (block : List Match) : Prop :=
  ∀ m ∈ block, ∀ path ∈ m.paths, path.labelRight = name ∨
    ∃ other ∈ block, other.unknown.name = path.labelRight

theorem Match.exists_path_of_has : ∀ {block : List Match} {scope : Scope} {walks : Continuations},
    Match.walks scope block = .ok walks → ∀ {label : String}, walks.Has label →
      ∃ m ∈ block, ∃ path ∈ m.paths, path.labelRight = label
  | [], _, _, hw, _, hl => by
    cases hw
    cases hl
  | ⟨unknown, conditions⟩ :: rest, scope, walks, hw, label, hl => by
    obtain ⟨behind, path, next, hb, hpaths, -, hlead⟩ := Match.walks_cons_eq_ok hw
    obtain ⟨type, -, hmoves⟩ := PathCondition.lead_eq_ok hlead
    rcases (hmoves.has label).mp hl with rfl | hl
    · exact ⟨_, List.mem_cons_self, path, by rw [hpaths]; exact List.mem_cons_self, rfl⟩
    · obtain ⟨m, hm, hpath⟩ := Match.exists_path_of_has hb (Continuations.has_without_iff.mp hl).2
      exact ⟨m, List.mem_cons_of_mem _ hm, hpath⟩

theorem Match.type?_unknown_eq_none : ∀ {block : List Match} {scope scope' : Scope},
    Match.checkAll scope block = .ok scope' → ∀ m ∈ block, scope.type? m.unknown.name = none
  | [], _, _, _ => by simp
  | first :: rest, scope, scope', hc => by
    obtain ⟨hnew, -, -, hrest⟩ := Match.checkAll_cons_eq_ok_iff.mp hc
    refine List.forall_mem_cons.mpr ⟨hnew, fun m hm => ?_⟩
    have hm := Match.type?_unknown_eq_none hrest m hm
    by_cases hn : m.unknown.name = first.unknown.name
    · rw [hn]
      exact hnew
    · rwa [Scope.type?_bind_of_ne hn] at hm

variable {Node : Type} {G : Graph Node}

/-- **A block that starts from one label can be satisfied exactly where all steps that continue from
the label are possible.** -/
theorem Match.exists_satisfiedBy_joins_iff_possible {scope scope' : Scope} {name : String}
    {block : List Match} {walks : Continuations} {child : Walk} {env : Environment Node} {g : Node}
    (hc : Match.checkAll scope block = .ok scope') (hw : Match.walks scope block = .ok walks)
    (hchild : walks.walk? name = some child) (hconf : Match.Confined name block)
    (hg : env.lookup name = some g) (ht : scope.type? name = some (G.type g)) :
    (∃ facts, Match.SatisfiedBy G env (block.map Match.joins) facts) ↔ child.Possible G g := by
  -- no walk continues from a label around the block but the one
  have honly : ∀ label, walks.Has label → label = name := by
    intro label hl
    obtain ⟨m, hm, path, hp, rfl⟩ := Match.exists_path_of_has hw hl
    refine (hconf m hm path hp).resolve_right ?_
    rintro ⟨other, ho, he⟩
    obtain ⟨walk, hwalk⟩ := Option.isSome_iff_exists.mp hl
    have hvisible := Match.type?_of_walks hc hw hwalk
    rw [← he, Match.type?_unknown_eq_none hc other ho] at hvisible
    cases hvisible
  have hbound : walks.BoundIn G scope env := by
    intro label hl
    obtain rfl := honly label hl
    exact ⟨g, hg, ht⟩
  rw [Match.exists_satisfiedBy_joins_iff hc hw hbound]
  constructor
  · intro h
    have hsteps := h name g hg
    rwa [Continuations.steps_of_walk? hchild] at hsteps
  · intro h label f hl s hs
    have hhas : walks.Has label := by
      rw [Continuations.Has, Option.isSome_iff_ne_none]
      intro hnone
      simp [Continuations.steps, hnone] at hs
    obtain rfl := honly label hhas
    rw [hg] at hl
    cases hl
    rw [Continuations.steps_of_walk? hchild] at hs
    exact h s hs

/-- **The obligations of an existential condition hold where the condition does**, unless it is
negative and some but not all of its steps are possible, or it is negative and has no steps. -/
theorem Condition.holds_iff_obligations_iff {scope scope' : Scope} {unknown : Label} {holds : Bool}
    {block : List Match} {obligations : List Obligation} {env : Environment Node} {g : Node}
    (hc : Match.checkAll scope block = .ok scope')
    (ho : (Condition.existential holds block).obligations scope unknown = .ok obligations)
    (hconf : Match.Confined unknown.name block) (hg : env.lookup unknown.name = some g)
    (ht : scope.type? unknown.name = some (G.type g)) :
    ((Condition.existential holds (block.map Match.joins)).Holds G env unknown ↔
      ∀ o ∈ obligations, o.HoldsAt G g) ↔
    (holds = true ∨ ((∃ o ∈ obligations, o.step.Possible G g) ↔
      ∀ o ∈ obligations, o.step.Possible G g)) := by
  obtain ⟨walks, child, hw, hchild, -, rfl⟩ := Condition.obligations_existential_eq_ok_iff.mp ho
  rw [Condition.Holds, Match.exists_satisfiedBy_joins_iff_possible hc hw hchild hconf hg ht]
  have hnone : (∀ s ∈ child.steps, ¬ s.Possible G g) ↔ ¬ ∃ s ∈ child.steps, s.Possible G g := by
    simp
  simp only [List.forall_mem_map, Obligation.HoldsAt, Walk.Possible]
  simp only [List.mem_map, exists_exists_and_eq_and]
  cases holds with
  | true => simp
  | false =>
    simp only [Bool.false_eq_true, false_iff, false_or]
    rw [hnone, not_iff_not]
    exact Iff.comm

namespace Specification

variable {spec : Specification}

/-- **The obligations that a specification derives from an existential condition mean what the
condition does**, unless it is negative and its steps are neither all possible nor all
impossible. -/
theorem condition_holds_iff_obligations_iff (h : spec.Accepted) {walk : Walk}
    (hw : spec.walk = .ok walk) {scope : Scope} {m : Match}
    (hm : Match.StandsIn (Scope.bindAll [] spec.given) spec.body scope m) {holds : Bool}
    {block : List Match} (he : .existential holds block ∈ m.conditions)
    (hconf : Match.Confined m.unknown.name block) {Node : Type} (G : Graph Node)
    {env : Environment Node} {g : Node} (hg : env.lookup m.unknown.name = some g)
    (ht : G.type g = m.unknown.type) : ∃ obligations,
      (Condition.existential holds block).obligations (scope.bind m.unknown) m.unknown =
        .ok obligations ∧
      (((Condition.existential holds (block.map Match.joins)).Holds G env m.unknown ↔
          ∀ o ∈ obligations, o.HoldsAt G g) ↔
        (holds = true ∨ ((∃ o ∈ obligations, o.step.Possible G g) ↔
          ∀ o ∈ obligations, o.step.Possible G g))) := by
  obtain ⟨labels, body, projections⟩ := spec
  have hc := h.check
  unfold Specification.walk at hw
  match labels, hw with
  | [given], hw =>
    obtain ⟨walks, hwalks, -⟩ := Except.bind_eq_ok_iff.mp hw
    obtain ⟨_, hd, hc⟩ := Except.bind_eq_ok_iff.mp hc
    obtain ⟨_, hbody, -⟩ := Except.bind_eq_ok_iff.mp hc
    cases hd
    obtain ⟨obligations, ho⟩ := hm.exists_obligations hwalks _ he
    obtain ⟨_, hblock⟩ := Condition.check_existential_eq_ok_iff.mp
      (Condition.checkAll_eq_ok_iff.mp (hm.check hbody) _ he)
    exact ⟨obligations, ho, Condition.holds_iff_obligations_iff hblock ho hconf hg
      (by rw [Scope.type?_bind_self, ht])⟩
  | [], hw => cases hw
  | _ :: _ :: _, hw => cases hw

/-- A project with a deletion. -/
def deletedProject : Graph Bool where
  type isDeletion := if isDeletion then "Deleted" else "Project"
  edge successor role predecessor := successor = true ∧ role = "project" ∧ predecessor = false

theorem condition_holds_iff_obligations_withoutDeletion :
    (Condition.existential false [deletion]).Holds deletedProject [("p", false)]
        ⟨"p", "Project"⟩ ↔
      ∀ o ∈ [(⟨false, ⟨.successor, "project", .ofType "Deleted"⟩⟩ : Obligation)],
        o.HoldsAt deletedProject false := by
  have hbound : [("p", false)].lookup "p" = some false := rfl
  obtain ⟨obligations, ho, h⟩ := condition_holds_iff_obligations_iff accepted_withoutDeletion rfl
    .here (List.mem_cons_of_mem _ (List.mem_singleton_self _))
    (by simp [Match.Confined, deletion, referring, Match.paths]) deletedProject hbound rfl
  obtain rfl : [⟨false, ⟨.successor, "project", .ofType "Deleted"⟩⟩] = obligations :=
    Except.ok.inj ho
  exact h.mpr (Or.inr (by simp))

/-- The archivals of a project. -/
def archival : Match := referring "a" "Archived" "project" "p" "Project"

theorem accepted_withoutBoth : (projectsWhere false [deletion, archival]).Accepted :=
  accepted_of_isPrintable rfl rfl

/-- **Not all obligations mean what their condition does.** A project with a deletion that is not
archived is not both, but the obligations forbid each. -/
theorem not_forall_condition_holds_iff_obligations : ¬ ∀ (spec : Specification) (walk : Walk)
    (scope : Scope) (m : Match) (holds : Bool) (block : List Match), spec.Accepted →
    spec.walk = .ok walk → Match.StandsIn (Scope.bindAll [] spec.given) spec.body scope m →
    .existential holds block ∈ m.conditions → Match.Confined m.unknown.name block →
    ∀ (Node : Type) (G : Graph Node) (env : Environment Node) (g : Node),
      env.lookup m.unknown.name = some g → G.type g = m.unknown.type → ∃ obligations,
        (Condition.existential holds block).obligations (scope.bind m.unknown) m.unknown =
          .ok obligations ∧
        ((Condition.existential holds (block.map Match.joins)).Holds G env m.unknown ↔
          ∀ o ∈ obligations, o.HoldsAt G g) := by
  intro h
  obtain ⟨obligations, ho, hiff⟩ := h _ _ _ _ _ _ accepted_withoutBoth rfl .here
    (List.mem_cons_of_mem _ (List.mem_singleton_self _))
    (by simp [Match.Confined, deletion, archival, referring, Match.paths]) Bool deletedProject
    [("p", false)] false rfl rfl
  obtain rfl : [⟨false, ⟨.successor, "project", .ofType "Deleted"⟩⟩,
      ⟨false, ⟨.successor, "project", .ofType "Archived"⟩⟩] = obligations := Except.ok.inj ho
  -- the project has a deletion
  have hdeleted : Step.Possible deletedProject ⟨.successor, "project", .ofType "Deleted"⟩ false :=
    .leads (g := true) ⟨⟨rfl, rfl, rfl⟩, rfl⟩ (by simp [Walk.ofType])
  have hnot : ¬ ∃ facts, Match.SatisfiedBy deletedProject [("p", false)]
      ([deletion, archival].map Match.joins) facts := by
    rintro ⟨facts, d, _, rfl, -, -, a, _, rfl, ha, -⟩
    cases a <;> simp [deletedProject, archival, referring] at ha
  have hall := hiff.mp (iff_of_false (by simp) hnot)
  exact absurd ((hall _ List.mem_cons_self).mpr hdeleted) (by simp)

end Specification

end FactGraph
