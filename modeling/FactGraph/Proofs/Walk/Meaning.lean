import FactGraph.Proofs.Coverage.Visits
import FactGraph.Proofs.Specification.Meaning
import FactGraph.Proofs.Walk.Continuations

/-! # What walks of matches mean

The steps along which matches lead are possible from the facts that their labels are bound to
exactly where facts can be bound to their unknowns. Only path conditions count for this; what
existential conditions demand is not among the steps.

* `PathCondition.possible_chain_iff`: the chain of a path condition is possible from a fact exactly
  where the condition is satisfied by a fact from which the rest is possible.
* `Match.exists_satisfiedBy_joins_iff`: the steps of matches. -/

namespace FactGraph

variable {Node : Type} {G : Graph Node}

/-! ### Chains -/

theorem Step.possible_iff {step : Step} {f : Node} : step.Possible G f ↔
    ∃ g, step.Leads G f g ∧ ∀ s ∈ step.next.steps, s.Possible G g :=
  ⟨fun ⟨lead, further⟩ => ⟨_, lead, further⟩, fun ⟨_, lead, further⟩ => .leads lead further⟩

namespace Walk

/-- All steps of a walk are possible from a fact. -/
def Possible (G : Graph Node) (walk : Walk) (f : Node) : Prop := ∀ s ∈ walk.steps, s.Possible G f

theorem possible_single_iff {type role : String} {direction : Direction} {next : Walk} {f : Node} :
    Walk.Possible G ⟨type, [⟨direction, role, next⟩], []⟩ f ↔
      ∃ g, G.Along direction role f g ∧ G.type g = next.type ∧ next.Possible G g := by
  rw [Possible, List.forall_mem_singleton, Step.possible_iff]
  simp only [Step.Leads, Possible, and_assoc]

theorem possible_descending_iff : ∀ {roles : List Role} {next : Walk} {top : Node},
    G.type top = endType next.type roles → ((descending roles next).Possible G top ↔
      ∃ f, G.Climbs next.type f roles top ∧ next.Possible G f)
  | [], next, top, ht => by
    constructor
    · exact fun h => ⟨top, ⟨ht, rfl⟩, h⟩
    · rintro ⟨f, ⟨-, rfl⟩, h⟩
      exact h
  | role :: rest, next, top, ht => by
    rw [endType_cons] at ht
    have hsingle : (ofType role.target).successor role.name next =
        ⟨role.target, [⟨.successor, role.name, next⟩], []⟩ := rfl
    have ih := @possible_descending_iff rest ((ofType role.target).successor role.name next) top ht
    rw [descending, List.foldl_cons]
    refine ih.trans ?_
    simp only [hsingle, possible_single_iff, Graph.Climbs, Graph.Along]
    constructor
    · rintro ⟨g, hg, f, he, hf, h⟩
      exact ⟨f, ⟨hf, g, he, hg⟩, h⟩
    · rintro ⟨f, ⟨hf, g, he, hg⟩, h⟩
      exact ⟨g, hg, f, he, hf, h⟩

/-- Roles are possible from a fact if they lead up to one from which the rest is. -/
theorem possible_ascending_iff : ∀ {roles : List Role} {type : String} {next : Walk} {r : Node},
    G.type r = type → next.type = endType type roles → ((ascending type roles next).Possible G r ↔
      ∃ top, G.Climbs type r roles top ∧ next.Possible G top)
  | [], type, next, r, hr, _ => by
    constructor
    · exact fun h => ⟨r, ⟨hr, rfl⟩, h⟩
    · rintro ⟨top, ⟨-, rfl⟩, h⟩
      exact h
  | role :: rest, type, next, r, hr, hn => by
    rw [endType_cons] at hn
    have hsingle : ascending type (role :: rest) next =
        ⟨type, [⟨.predecessor, role.name, ascending role.target rest next⟩], []⟩ := rfl
    simp only [hsingle, possible_single_iff, type_ascending hn, Graph.Climbs, Graph.Along]
    constructor
    · rintro ⟨g, he, hg, h⟩
      obtain ⟨top, ht, h⟩ := (possible_ascending_iff hg hn).mp h
      exact ⟨top, ⟨hr, g, he, ht⟩, h⟩
    · rintro ⟨top, ⟨-, g, he, ht⟩, h⟩
      exact ⟨g, he, ht.type_start, (possible_ascending_iff ht.type_start hn).mpr ⟨top, ht, h⟩⟩

end Walk

/-- **The chain of a path condition is possible** from a fact exactly where the condition is
satisfied by a fact from which the rest is possible. -/
theorem PathCondition.possible_chain_iff {path : PathCondition} {type : String} {next : Walk}
    {r : Node} (hr : G.type r = type)
    (he : endType next.type path.rolesLeft = endType type path.rolesRight) :
    (path.chain type next).Possible G r ↔ ∃ f, (∃ top, G.Climbs next.type f path.rolesLeft top ∧
      G.Climbs type r path.rolesRight top) ∧ next.Possible G f := by
  rw [chain, Walk.possible_ascending_iff hr (by rw [Walk.type_descending, he])]
  constructor
  · rintro ⟨top, hright, h⟩
    obtain ⟨f, hleft, h⟩ :=
      (Walk.possible_descending_iff (by rw [hright.type_end, he])).mp h
    exact ⟨f, ⟨top, hleft, hright⟩, h⟩
  · rintro ⟨f, ⟨top, hleft, hright⟩, h⟩
    exact ⟨top, hright, (Walk.possible_descending_iff hleft.type_end).mpr ⟨f, hleft, h⟩⟩

/-! ### Matches -/

/-- The match with its path conditions only. -/
def Match.joins (m : Match) : Match := ⟨m.unknown, m.paths.map .path⟩

/-- The labels from which walks continue are bound to facts of their types. -/
def Continuations.BoundIn (G : Graph Node) (scope : Scope) (env : Environment Node)
    (walks : Continuations) : Prop :=
  ∀ label, walks.Has label → ∃ f, env.lookup label = some f ∧ scope.type? label = some (G.type f)

/-- All steps that continue from labels are possible from the facts they are bound to. -/
def Continuations.Possible (G : Graph Node) (env : Environment Node) (walks : Continuations) :
    Prop :=
  ∀ label f, env.lookup label = some f → ∀ s ∈ walks.steps label, s.Possible G f

theorem lookup_cons_self {env : Environment Node} {name : String} {f : Node} :
    ((name, f) :: env).lookup name = some f := by
  simp

theorem lookup_cons_of_ne {env : Environment Node} {name label : String} {f : Node}
    (h : label ≠ name) : ((name, f) :: env).lookup label = env.lookup label := by
  rw [List.lookup_cons, beq_eq_false_iff_ne.mpr h]

/-- What continues from an unknown is possible from the fact that is bound to it. -/
theorem Continuations.possible_cons_iff {behind : Continuations} {env : Environment Node}
    {name : String} {f : Node} : behind.Possible G ((name, f) :: env) ↔
      (∀ s ∈ behind.steps name, s.Possible G f) ∧ (behind.without name).Possible G env := by
  constructor
  · refine fun h => ⟨h name f lookup_cons_self, fun label g hl s hs => ?_⟩
    rw [Continuations.steps_without] at hs
    split_ifs at hs with hn
    · cases hs
    · exact h label g (by rwa [lookup_cons_of_ne hn]) s hs
  · rintro ⟨hf, h⟩ label g hl
    by_cases hn : label = name
    · rw [hn, lookup_cons_self] at hl
      cases hl
      rwa [hn]
    · rw [lookup_cons_of_ne hn] at hl
      have hsteps := h label g hl
      rwa [Continuations.steps_without, if_neg hn] at hsteps

theorem PathCondition.Moves.possible_iff {path : PathCondition} {type : String} {next : Walk}
    {walks walks' : Continuations} {env : Environment Node} {r : Node}
    (h : path.Moves type next walks walks') (hr : env.lookup path.labelRight = some r) :
    walks'.Possible G env ↔ (path.chain type next).Possible G r ∧ walks.Possible G env := by
  constructor
  · refine fun hp => ⟨fun s hs => hp _ r hr s ?_, fun label f hl s hs => hp label f hl s ?_⟩
    · rw [h.steps, if_pos rfl]
      exact List.mem_append_left _ hs
    · rw [h.steps]
      split_ifs
      · exact List.mem_append_right _ hs
      · exact hs
  · rintro ⟨hc, hp⟩ label f hl s hs
    rw [h.steps] at hs
    split_ifs at hs with he
    · rw [he, hr] at hl
      cases hl
      rw [he] at hs
      exact (List.mem_append.mp hs).elim (hc s) (hp _ r hr s)
    · exact hp label f hl s hs

theorem PathCondition.holds_cons_iff {path : PathCondition} {unknown : Label}
    {env : Environment Node} {f r : Node} (hne : path.labelRight ≠ unknown.name)
    (hr : env.lookup path.labelRight = some r) :
    path.Holds G ((unknown.name, f) :: env) unknown ↔
      ∃ top, G.Climbs unknown.type f path.rolesLeft top ∧
        G.Climbs (G.type r) r path.rolesRight top := by
  simp only [PathCondition.Holds, lookup_cons_self, lookup_cons_of_ne hne, hr]
  constructor
  · rintro ⟨_, _, top, hf, hg, hclimbs⟩
    cases hf
    cases hg
    exact ⟨top, hclimbs⟩
  · rintro ⟨top, hclimbs⟩
    exact ⟨f, r, top, rfl, rfl, hclimbs⟩

theorem Match.exists_satisfiedBy_joins_cons_iff {unknown : Label} {conditions : List Condition}
    {rest : List Match} {path : PathCondition} {env : Environment Node}
    (h : Match.paths ⟨unknown, conditions⟩ = [path]) :
    (∃ facts, Match.SatisfiedBy G env ((⟨unknown, conditions⟩ :: rest).map Match.joins) facts) ↔
      ∃ f, G.type f = unknown.type ∧ path.Holds G ((unknown.name, f) :: env) unknown ∧
        ∃ others, Match.SatisfiedBy G ((unknown.name, f) :: env) (rest.map Match.joins) others := by
  rw [List.map_cons, Match.joins, h]
  simp only [List.map_cons, List.map_nil, Match.SatisfiedBy, Condition.AllHold, Condition.Holds,
    and_true]
  constructor
  · rintro ⟨_, f, others, rfl, hf, hp, hs⟩
    exact ⟨f, hf, hp, others, hs⟩
  · rintro ⟨f, hf, hp, others, hs⟩
    exact ⟨_, f, others, rfl, hf, hp, hs⟩

/-- **Facts can be bound to the unknowns of matches exactly where the steps along which the matches
lead are possible.** -/
theorem Match.exists_satisfiedBy_joins_iff : ∀ {block : List Match} {scope scope' : Scope}
    {walks : Continuations} {env : Environment Node}, Match.checkAll scope block = .ok scope' →
    Match.walks scope block = .ok walks → walks.BoundIn G scope env →
    ((∃ facts, Match.SatisfiedBy G env (block.map Match.joins) facts) ↔ walks.Possible G env)
  | [], _, _, _, _, _, hw, _ => by
    cases hw
    exact iff_of_true ⟨[], rfl⟩ fun label f _ s hs => by cases hs
  | ⟨unknown, conditions⟩ :: rest, scope, scope', walks, env, hc, hw, henv => by
    obtain ⟨hnew, hone, hconds, hrest⟩ := Match.checkAll_cons_eq_ok_iff.mp hc
    obtain ⟨behind, path, next, hb, hpaths, hnext, hlead⟩ := Match.walks_cons_eq_ok hw
    obtain ⟨type, htype, hmoves⟩ := PathCondition.lead_eq_ok hlead
    -- the path condition starts from a label that is bound to a fact of its type
    have hmem : path ∈ Match.paths ⟨unknown, conditions⟩ := by simp [hpaths]
    have hcheck := Condition.checkAll_eq_ok_iff.mp hconds _ (Match.mem_paths_iff.mp hmem)
    obtain ⟨hne, type', htype', hends⟩ := PathCondition.check_eq_ok_iff.mp hcheck
    obtain rfl : type = type' := Option.some_inj.mp (htype.symm.trans htype')
    obtain ⟨r, hr, hrt⟩ := henv path.labelRight ((hmoves.has _).mpr (Or.inl rfl))
    rw [Scope.type?_bind_of_ne hne] at htype
    obtain rfl : type = G.type r := Option.some_inj.mp (htype.symm.trans hrt)
    have hnexttype : next.type = unknown.type :=
      (Condition.type_of_obligeAll hnext).trans (Match.type_getD hrest hb)
    have hsteps : next.steps = behind.steps unknown.name := by
      rw [Condition.steps_of_obligeAll hnext, Continuations.steps_getD]
    have hbehind : ∀ f, G.type f = unknown.type → ((∃ others, Match.SatisfiedBy G
        ((unknown.name, f) :: env) (rest.map Match.joins) others) ↔
          next.Possible G f ∧ (behind.without unknown.name).Possible G env) := by
      intro f hf
      rw [Walk.Possible, hsteps, ← Continuations.possible_cons_iff]
      refine Match.exists_satisfiedBy_joins_iff hrest hb fun label hl => ?_
      by_cases hn : label = unknown.name
      · subst hn
        exact ⟨f, lookup_cons_self, by rw [hf, Scope.type?_bind_self]⟩
      · rw [lookup_cons_of_ne hn, Scope.type?_bind_of_ne hn]
        exact henv label ((hmoves.has _).mpr (Or.inr (Continuations.has_without_iff.mpr ⟨hn, hl⟩)))
    rw [hmoves.possible_iff hr, Match.exists_satisfiedBy_joins_cons_iff hpaths,
      PathCondition.possible_chain_iff rfl (by rw [hnexttype]; exact hends), hnexttype,
      ← exists_and_right]
    refine exists_congr fun f => ?_
    rw [PathCondition.holds_cons_iff hne hr]
    constructor
    · rintro ⟨hf, hclimbs, hs⟩
      obtain ⟨hp, hothers⟩ := (hbehind f hf).mp hs
      exact ⟨⟨hclimbs, hp⟩, hothers⟩
    · rintro ⟨⟨⟨top, hleft, hright⟩, hp⟩, hothers⟩
      have hf := hleft.type_start
      exact ⟨hf, ⟨top, hleft, hright⟩, (hbehind f hf).mpr ⟨hp, hothers⟩⟩

end FactGraph
