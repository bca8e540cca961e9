import FactGraph.Proofs.Walk.Swaps

/-! # Walks that go further

Matches behind a block go on from what the block reaches, or from the labels in front of it. If each
of them goes through a role, they add steps to the walks of the block, but no obligations to a fact
that the block reaches: their own obligations are on facts behind the steps that they add. So
whatever the block does is covered by the walk of the longer one.

* `Walk.Prolongs.coveredBy`: a walk is covered by one that goes further.
* `Match.prolong_walks_append`: matches behind a block, one match of the block after the other.
* `Specification.prolongs_walk`: the walks of whole specifications. -/

namespace FactGraph

/-! ### Walks that go further -/

/-- A walk takes every step of another one, and imposes the same at its start. -/
structure Walk.Prolongs (longer walk : Walk) : Prop where
  type : walk.type = longer.type
  obligations : walk.obligations = longer.obligations
  steps : ∀ s ∈ walk.steps, ∃ t ∈ longer.steps, s.Follows t

theorem Step.Follows.refl (step : Step) : step.Follows step :=
  ⟨rfl, rfl, Walk.unmet_self _, Walk.CoveredBy.refl _⟩

namespace Walk.Prolongs

variable {longer longer' walk walk' : Walk}

theorem refl (walk : Walk) : walk.Prolongs walk :=
  ⟨rfl, rfl, fun s hs => ⟨s, hs, .refl s⟩⟩

/-- Whatever imposes nothing at its start goes further than the walk that stays there. -/
theorem ofType {type : String} (ht : longer.type = type) (ho : longer.obligations = []) :
    longer.Prolongs (Walk.ofType type) :=
  ⟨ht.symm, ho.symm, fun _ hs => absurd hs List.not_mem_nil⟩

theorem unmet_eq_nil (h : longer.Prolongs walk) : walk.unmet longer = [] := by
  rw [Walk.unmet_eq_nil_iff, ← h.obligations]
  exact fun o ho => ⟨o, ho, o.implies_refl⟩

/-- **A walk is covered by one that goes further.** -/
theorem coveredBy (h : longer.Prolongs walk) : walk.CoveredBy longer := by
  refine Walk.coveredBy_iff.mpr ⟨h.type, h.steps, fun o ho => ⟨o.step, ?_, .refl _⟩⟩
  exact Walk.mem_examined.mpr (Or.inr ⟨o, h.obligations ▸ ho, rfl⟩)

/-! ### Building walks -/

theorem step (h : longer.Prolongs walk) (type : String) (direction : Direction) (role : String) :
    Prolongs ⟨type, [⟨direction, role, longer⟩], []⟩ ⟨type, [⟨direction, role, walk⟩], []⟩ := by
  refine ⟨rfl, rfl, List.forall_mem_singleton.mpr ⟨_, List.mem_singleton_self _, ?_⟩⟩
  exact ⟨rfl, rfl, h.unmet_eq_nil, h.coveredBy⟩

theorem chain (h : longer.Prolongs walk) (path : PathCondition) (type : String) :
    (path.chain type longer).Prolongs (path.chain type walk) :=
  path.rel_chain step h type

theorem both (h : longer.Prolongs walk) (h' : longer'.Prolongs walk') :
    (longer.both longer').Prolongs (walk.both walk') := by
  refine ⟨h.type, congrArg₂ (· ++ ·) h.obligations h'.obligations, fun s hs => ?_⟩
  rcases List.mem_append.mp hs with hs | hs
  · obtain ⟨t, ht, hst⟩ := h.steps s hs
    exact ⟨t, List.mem_append_left _ ht, hst⟩
  · obtain ⟨t, ht, hst⟩ := h'.steps s hs
    exact ⟨t, List.mem_append_right _ ht, hst⟩

theorem obligeAll {scope : Scope} {unknown : Label} : ∀ {conditions : List Condition}
    {longer longer' walk walk' : Walk}, longer.Prolongs walk →
    Condition.obligeAll scope unknown.name walk conditions = .ok walk' →
    Condition.obligeAll scope unknown.name longer conditions = .ok longer' →
      longer'.Prolongs walk'
  | [], _, _, _, _, h, hw, hl => by
    cases hw
    cases hl
    exact h
  | condition :: rest, longer, longer', walk, walk', h, hw, hl => by
    obtain ⟨next, hnext, hw⟩ := Except.bind_eq_ok_iff.mp hw
    obtain ⟨next', hnext', hl⟩ := Except.bind_eq_ok_iff.mp hl
    obtain ⟨added, hadded, rfl⟩ := Condition.oblige_eq_ok_iff.mp hnext
    obtain ⟨added', hadded', rfl⟩ := Condition.oblige_eq_ok_iff.mp hnext'
    obtain rfl := Except.ok.inj (hadded.symm.trans hadded')
    have hadd : Prolongs { longer with obligations := longer.obligations ++ added }
        { walk with obligations := walk.obligations ++ added } :=
      ⟨h.type, congrArg (· ++ added) h.obligations, h.steps⟩
    exact hadd.obligeAll hw hl

end Walk.Prolongs

/-! ### Matches that travel -/

/-- Every path condition of a match goes through a role. -/
def Match.Travels (m : Match) : Prop :=
  ∀ path ∈ m.paths, path.rolesLeft ≠ [] ∨ path.rolesRight ≠ []

theorem Walk.obligations_descending : ∀ (roles : List Role) {next : Walk},
    next.obligations = [] → (descending roles next).obligations = []
  | [], _, h => h
  | _ :: rest, _, _ => obligations_descending rest rfl

theorem PathCondition.obligations_chain {path : PathCondition} {type : String} {next : Walk}
    (h : path.rolesLeft ≠ [] ∨ path.rolesRight ≠ []) : (path.chain type next).obligations = [] := by
  obtain ⟨left, label, _ | ⟨up, right⟩⟩ := path
  · obtain ⟨down, rest, rfl⟩ := List.exists_cons_of_ne_nil (h.resolve_right fun hr => hr rfl)
    exact Walk.obligations_descending rest rfl
  · rfl

/-- **Matches that travel impose nothing on the labels that they start from.** -/
theorem Match.obligations_of_walks : ∀ {block : List Match} {scope : Scope}
    {walks : Continuations}, (∀ m ∈ block, m.Travels) → Match.walks scope block = .ok walks →
    ∀ {label : String} {walk : Walk}, walks.walk? label = some walk → walk.obligations = []
  | [], _, _, _, hw, _, _, hl => by
    cases hw
    cases hl
  | ⟨unknown, conditions⟩ :: rest, scope, walks, ht, hw, label, walk, hl => by
    obtain ⟨htravels, hrest⟩ := List.forall_mem_cons.mp ht
    obtain ⟨behind, path, next, hb, hpath, -, hlead⟩ := Match.walks_cons_eq_ok hw
    have ih : ∀ {label walk}, (behind.without unknown.name).walk? label = some walk →
        walk.obligations = [] := fun hl => by
      rw [Continuations.walk?_without] at hl
      split_ifs at hl
      exact Match.obligations_of_walks hrest hb hl
    obtain ⟨type, merged, -, hm, rfl⟩ := PathCondition.exists_merged_of_lead hlead
    have hchain : (path.chain type next).obligations = [] :=
      path.obligations_chain (htravels path (hpath ▸ List.mem_singleton_self path))
    rw [Continuations.walk?_insert] at hl
    split_ifs at hl
    · cases hl
      obtain ⟨-, rfl⟩ | ⟨other, hother, hm⟩ := hm
      · exact hchain
      · unfold Walk.merge at hm
        split_ifs at hm
        cases hm
        rw [hchain, ih hother]
        rfl
    · exact ih hl

/-! ### Matches behind a block -/

/-- What continues from each visible label goes further than in other walks. -/
def Continuations.Prolong (scope : Scope) (longer walks : Continuations) : Prop :=
  ∀ label : Label, scope.type? label.name = some label.type →
    (longer.onward label).Prolongs (walks.onward label)

theorem Continuations.onward_without {walks : Continuations} {label : Label} {name : String}
    (h : label.name ≠ name) : (walks.without name).onward label = walks.onward label := by
  rw [onward, onward, walk?_without, if_neg h]

/-- A path condition leads from its label to what continues from the unknown, and leaves the other
labels as they are. -/
theorem PathCondition.onward_reach {path : PathCondition} {type : String} {next : Walk}
    {walks : Continuations} {label : Label} : (path.reach type next walks).onward label =
      if label.name = path.labelRight then
        (path.chain type next).both (walks.onward ⟨path.labelRight, type⟩)
      else walks.onward label := by
  rw [Continuations.onward, walk?_reach]
  split_ifs <;> rfl

theorem Match.StartsAt.prolong {scope : Scope} {path : PathCondition} {type : String} {m : Match}
    (h : m.StartsAt scope path type) (hnew : scope.type? m.unknown.name = none)
    {longer walks : Continuations} {longerNext next : Walk}
    (hw : longer.Prolong (scope.bind m.unknown) walks) (hn : longerNext.Prolongs next) :
    (path.reach type longerNext (longer.without m.unknown.name)).Prolong scope
      (path.reach type next (walks.without m.unknown.name)) := by
  have hothers : ∀ label : Label, scope.type? label.name = some label.type →
      ((longer.without m.unknown.name).onward label).Prolongs
        ((walks.without m.unknown.name).onward label) := fun label ht => by
    have hne : label.name ≠ m.unknown.name := fun he => by
      rw [he, hnew] at ht
      cases ht
    rw [Continuations.onward_without hne, Continuations.onward_without hne]
    exact hw label ((Scope.type?_bind_of_ne hne).trans ht)
  intro label ht
  rw [PathCondition.onward_reach, PathCondition.onward_reach]
  split_ifs
  · exact (hn.chain path type).both (hothers ⟨path.labelRight, type⟩ h.type?)
  · exact hothers label ht

/-- **Matches behind a block only add steps** to what continues from the labels of the block, if
each of them goes through a role. -/
theorem Match.prolong_walks_append : ∀ {block more : List Match} {scope inner inner' : Scope}
    {walks longer : Continuations}, Match.checkAll scope block = .ok inner →
    Match.checkAll scope (block ++ more) = .ok inner' → (∀ m ∈ more, m.Travels) →
    Match.walks scope block = .ok walks → Match.walks scope (block ++ more) = .ok longer →
      longer.Prolong scope walks
  | [], more, scope, _, _, walks, longer, _, hc, ht, hw, hl => by
    cases hw
    intro label hlabel
    show (longer.onward label).Prolongs (.ofType label.type)
    rw [Continuations.onward]
    rcases hwalk : longer.walk? label.name with _ | walk
    · exact .refl _
    · -- whatever continues from a label starts at its type, and imposes nothing there
      have htype := Match.type?_of_walks hc hl hwalk
      rw [hlabel, Option.some_inj] at htype
      exact .ofType htype.symm (Match.obligations_of_walks ht hl hwalk)
  | m :: rest, more, scope, _, _, walks, longer, hc, hc', ht, hw, hl => by
    obtain ⟨hnew, hone, hconds, hrest⟩ := Match.checkAll_cons_eq_ok_iff.mp hc
    obtain ⟨-, -, -, hrest'⟩ := Match.checkAll_cons_eq_ok_iff.mp hc'
    obtain ⟨path, type, hm⟩ := Match.StartsAt.of_check hone hconds
    rw [hm.walks_cons fun _ hb _ _ h => Match.type?_of_walks hrest hb h] at hw
    rw [List.cons_append] at hl
    replace hrest' : Match.checkAll (scope.bind m.unknown) (rest ++ more) = _ := hrest'
    rw [hm.walks_cons fun _ hb _ _ h => Match.type?_of_walks hrest' hb h] at hl
    obtain ⟨behind, hb, hw⟩ := Except.bind_eq_ok_iff.mp hw
    obtain ⟨next, hn, hw⟩ := Except.bind_eq_ok_iff.mp hw
    obtain ⟨behind', hb', hl⟩ := Except.bind_eq_ok_iff.mp hl
    obtain ⟨next', hn', hl⟩ := Except.bind_eq_ok_iff.mp hl
    cases hw
    cases hl
    have ih := Match.prolong_walks_append hrest hrest' ht hb hb'
    exact hm.prolong hnew ih ((ih m.unknown Scope.type?_bind_self).obligeAll hn hn')

/-! ### Specifications -/

namespace Specification

/-- A specification with further matches behind its own. -/
def continued (spec : Specification) (more : List Match) : Specification :=
  { spec with body := spec.body ++ more }

/-- **The walk of a specification with further matches goes further**, if each of them goes through
a role. -/
theorem prolongs_walk {spec : Specification} {more : List Match} {walk longer : Walk}
    (hc : spec.check = .ok ()) (hc' : (spec.continued more).check = .ok ())
    (ht : ∀ m ∈ more, m.Travels) (hw : spec.walk = .ok walk)
    (hl : (spec.continued more).walk = .ok longer) : longer.Prolongs walk := by
  obtain ⟨_ | ⟨given, _ | ⟨other, labels⟩⟩, body, projections⟩ := spec
  · cases hw
  · obtain ⟨scope, hd, hc⟩ := Except.bind_eq_ok_iff.mp hc
    obtain ⟨_, hbody, -⟩ := Except.bind_eq_ok_iff.mp hc
    obtain ⟨scope', hd', hc'⟩ := Except.bind_eq_ok_iff.mp hc'
    obtain ⟨_, hbody', -⟩ := Except.bind_eq_ok_iff.mp hc'
    cases hd
    cases hd'
    obtain ⟨walks, hws, hw⟩ := Except.bind_eq_ok_iff.mp hw
    obtain ⟨walks', hws', hl⟩ := Except.bind_eq_ok_iff.mp hl
    cases hw
    cases hl
    exact Match.prolong_walks_append hbody hbody' ht hws hws' given Scope.type?_bind_self
  · cases hw

end Specification

end FactGraph
