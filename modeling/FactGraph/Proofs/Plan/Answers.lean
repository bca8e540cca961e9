import FactGraph.Proofs.Plan.Matches
import FactGraph.Proofs.Plan.Start
import FactGraph.Proofs.Specification.Accepted
import FactGraph.Proofs.Store
import Mathlib

/-! # The answers of a compiled specification

A plan denotes facts for the unknowns of a specification if it holds of some assignment of facts to
its slots, from which the bound labels read them.

* `Joined.denotes_iff`: these are the facts that satisfy the matches that were joined.
* `Specification.denotes_iff_satisfiedBy`: so a specification is compiled to a plan for its answers,
  on every store of facts. -/

namespace FactGraph

variable {Node : Type} {G : Graph Node} {schema : Schema} {hash : Node → String}

/-- Facts that a plan denotes for labels. -/
def Joined.Denotes (R : Rows Node) (joined : Joined) (labels : List Label) (facts : List Node) :
    Prop :=
  ∃ σ, joined.plan.Holds R σ ∧ List.Forall₂ (fun label f =>
    ∃ fact, joined.bindings.lookup label.name = some fact ∧ σ fact.slot = f) labels facts

/-! ### Reading facts back -/

theorem Environment.forall₂_bindAll : ∀ {body : List Match} {scope scope' : Scope}
    {env : Environment Node} {facts : List Node}, Match.checkAll scope body = .ok scope' →
    facts.length = body.length → List.Forall₂ (fun label f =>
      (env.bindAll body facts).lookup label.name = some f) (body.map Match.unknown) facts
  | [], _, _, _, facts, _, hlen => by
    obtain rfl := List.eq_nil_of_length_eq_zero hlen
    exact .nil
  | m :: rest, scope, _, env, facts, h, hlen => by
    obtain ⟨f, others, rfl⟩ := List.exists_cons_of_length_eq_add_one hlen
    obtain ⟨-, -, -, hrest⟩ := Match.checkAll_cons_eq_ok_iff.mp h
    refine .cons ?_ (Environment.forall₂_bindAll hrest (by simpa using hlen))
    rw [Environment.bindAll, Environment.lookup_bindAll hrest Scope.type?_bind_self]
    exact List.lookup_cons_self

namespace Joined

variable {inputs : List Plan.Input} {old last : Joined} {σ σ' : Nat → Node}
  {env : Environment Node} {added : Plan.Group} {body : List Match} {scope scope' : Scope}

/-! ### Pinned inputs -/

theorem Starts.pinned (hst : old.Starts G schema hash inputs σ env) {plan : Plan}
    (hd : plan.DerivesFrom inputs) {τ : Nat → Node}
    (ha : Plan.Agree (inputs.map Plan.Input.slot) τ σ) :
    ∀ input ∈ plan.inputs, input.Pinned (G.rows schema hash) plan.parameters τ := by
  intro derived hm
  obtain ⟨input, hi, hd⟩ := hd.exists_start hm
  obtain ⟨hid, hhash⟩ := hst.pins input hi
  obtain ⟨htype, hhashParameter⟩ := hst.unused input hi
  have hslot := ha _ (List.mem_map_of_mem hi)
  obtain rfl | ⟨id, position, position', hid', hp, hp', rfl⟩ := hd
  · constructor
    · rw [htype]
      rintro _ ⟨⟩
    · rw [hhashParameter]
      rintro _ ⟨⟩
  · constructor
    · rintro _ ⟨⟩
      refine ⟨id, hp, ?_⟩
      show schema.factTypeId (G.type (τ input.slot)) = some id
      rw [hslot, ← hid, hid']
    · rintro _ ⟨⟩
      show _ = some (Parameter.text (hash (τ input.slot)))
      rw [hslot, ← hhash, hp']

theorem Starts.eq_of_pinned (hst : old.Starts G schema hash inputs σ env) (hk : schema.Knows G)
    (hunique : ∀ f g, G.type f = G.type g → hash f = hash g → f = g) {plan : Plan}
    (hd : plan.DerivesFrom inputs) {τ : Nat → Node}
    (hp : ∀ input ∈ plan.inputs, input.Pinned (G.rows schema hash) plan.parameters τ) {s : Nat}
    (hs : s ∈ inputs.map Plan.Input.slot) (hset : plan.Settles s) : τ s = σ s := by
  obtain ⟨input, hi, rfl⟩ := List.mem_map.mp hs
  obtain ⟨derived, hm, hd⟩ := hd.exists_derived hi
  obtain ⟨hid, hhash⟩ := hst.pins input hi
  have hused := hset derived hm hd.slot_eq
  obtain ⟨hptype, hphash⟩ := hp derived hm
  obtain rfl | ⟨id, position, position', hid', hpos, hpos', rfl⟩ := hd
  · rw [(hst.unused _ hi).1] at hused
    cases hused
  · obtain ⟨id', hget, hrow⟩ := hptype position rfl
    rw [hpos] at hget
    cases hget
    have htype : G.type (τ input.slot) = G.type (σ input.slot) :=
      hk.types_injective _ _ id hrow (by rw [← hid, hid'])
    have hhashes : some (Parameter.text input.hash) = some (.text (hash (τ input.slot))) :=
      hpos'.symm.trans (hphash position' rfl)
    rw [hhash] at hhashes
    exact hunique _ _ htype (by simpa using hhashes.symm)

/-! ### Denoted facts -/

theorem Starts.plan_holds_iff (hst : old.Starts G schema hash inputs σ env)
    (hg : old.Grows [] last added) {τ : Nat → Node} {R : Rows Node} : last.plan.Holds R τ ↔
      (∀ input ∈ last.plan.inputs, input.Pinned R last.plan.parameters τ) ∧
        added.Holds R last.plan.parameters (inputs.map Plan.Input.slot) τ := by
  have htrunk : last.plan.trunk = added := by
    rw [hg.plan.trunk, hst.trunk, Plan.Group.grow, Plan.Group.empty_append]
  rw [Plan.Holds, htrunk, (hg.plan.derives inputs hst.sound.derives).map_slot]

/-- Where a plan holds, its slots may be taken to hold the start facts: those that it uses do. -/
theorem Starts.exists_agree (hst : old.Starts G schema hash inputs σ env) (hk : schema.Knows G)
    (hunique : ∀ f g, G.type f = G.type g → hash f = hash g → f = g)
    (hg : old.Grows [] last added) {τ : Nat → Node}
    (hh : last.plan.Holds (G.rows schema hash) τ) : ∃ υ,
      Plan.Agree (inputs.map Plan.Input.slot) υ σ ∧ (∀ s, last.plan.Settles s → υ s = τ s) ∧
      added.Holds (G.rows schema hash) last.plan.parameters (inputs.map Plan.Input.slot) υ := by
  obtain ⟨hpinned, hadded⟩ := (hst.plan_holds_iff hg).mp hh
  have hderives := hg.plan.derives inputs hst.sound.derives
  let υ : Nat → Node := fun s => if s ∈ inputs.map Plan.Input.slot then σ s else τ s
  have hagree : Plan.Agree (inputs.map Plan.Input.slot) υ σ := fun s hs => if_pos hs
  have hsame : ∀ s, last.plan.Settles s → υ s = τ s := by
    intro s hset
    by_cases hs : s ∈ inputs.map Plan.Input.slot
    · rw [hagree s hs, hst.eq_of_pinned hk hunique hderives hpinned hs hset]
    · exact if_neg hs
  refine ⟨υ, hagree, hsame, ?_⟩
  refine (Plan.Group.holds_congr added (fun _ _ => Iff.rfl) fun s hs _ => ?_).mp hadded
  exact (hsame s (hg.plan.settled s hs)).symm

/-- The labels read the facts that are bound to the unknowns, and else the start facts. -/
theorem Starts.reads_bindAll (hst : old.Starts G schema hash inputs σ env) (hw : old.Within scope)
    (hc : Match.checkAll scope body = .ok scope') (hg : old.Grows [] last added)
    (hbinds : BindsAll body old last) {υ : Nat → Node}
    (ha : Plan.Agree (inputs.map Plan.Input.slot) υ σ) {facts : List Node}
    (hlen : facts.length = body.length) (hread : List.Forall₂ (fun label f =>
      ∃ fact, last.bindings.lookup label.name = some fact ∧
        (last.plan.Settles fact.slot → υ fact.slot = f)) (body.map Match.unknown) facts) :
    last.Reads υ (env.bindAll body facts) := by
  have hold : ∀ label fact, old.bindings.lookup label = some fact →
      (env.bindAll body facts).lookup label = some (υ fact.slot) := by
    intro label fact hl
    rw [Environment.lookup_bindAll hc (hw label fact hl), hst.reads label fact hl,
      ha _ (hst.sees.slots (mem_slots_of_lookup hl))]
  intro label fact hl
  rcases hg.settled label fact hl with hl' | hset
  · exact hold label fact hl'
  · rcases hbinds.names label fact hl with ⟨m, hm, rfl⟩ | hl'
    · have hback := @Environment.forall₂_bindAll Node body scope scope' env facts hc hlen
      obtain ⟨f, -, ⟨fact', hl', hf⟩, hf'⟩ := Plan.exists_right_of_forall₂
        (hread.mp (fun _ _ hp hq => And.intro hp hq) hback) (List.mem_map_of_mem hm)
      rw [hl] at hl'
      cases hl'
      rw [hf', hf hset]
    · exact hold label fact hl'

/-- **A plan denotes the facts that satisfy the matches that were joined.** -/
theorem denotes_iff (hst : old.Starts G schema hash inputs σ env) (hk : schema.Knows G)
    (hunique : ∀ f g, G.type f = G.type g → hash f = hash g → f = g) (hw : old.Within scope)
    (hc : Match.checkAll scope body = .ok scope')
    (h : MatchesOutcome G (G.rows schema hash) [] scope' old (some last) body) {facts : List Node} :
    last.Denotes (G.rows schema hash) (body.map Match.unknown) facts ↔
      Match.SatisfiedBy G env body facts := by
  obtain ⟨added, hg, -, -, hbinds, hexp⟩ := h.joined last rfl
  have hexplains : facts.length = body.length → (Match.SatisfiedBy G env body facts ↔ _) :=
    fun hlen => hexp env facts hlen last.plan.parameters (List.prefix_refl _)
      (inputs.map Plan.Input.slot) σ hst.sees hst.typed hst.reads
  constructor
  · rintro ⟨τ, hh, hread⟩
    have hlen : facts.length = body.length := by simpa using hread.length_eq.symm
    obtain ⟨υ, ha, hsame, hadded⟩ := hst.exists_agree hk hunique hg hh
    refine (hexplains hlen).mpr ⟨υ, ha, hadded, hst.reads_bindAll hw hc hg hbinds ha hlen ?_⟩
    refine hread.imp ?_
    rintro label f ⟨fact, hl, rfl⟩
    exact ⟨fact, hl, hsame fact.slot⟩
  · intro hsat
    have hlen := Match.length_of_satisfiedBy hsat
    obtain ⟨τ, ha, hadded, hread⟩ := (hexplains hlen).mp hsat
    have hpinned := hst.pinned (hg.plan.derives inputs hst.sound.derives) ha
    refine ⟨τ, (hst.plan_holds_iff hg).mpr ⟨hpinned, hadded⟩, ?_⟩
    have hback := @Environment.forall₂_bindAll Node body scope scope' env facts hc hlen
    have hall : ∀ label ∈ body.map Match.unknown,
        (last.bindings.lookup label.name).isSome = true := by
      intro label hlabel
      obtain ⟨m, hm, rfl⟩ := List.mem_map.mp hlabel
      exact hbinds.bound m hm
    refine ((List.forall₂_and_left _ _).mpr ⟨hall, hback⟩).imp fun label f hf => ?_
    obtain ⟨fact, hl⟩ := Option.isSome_iff_exists.mp hf.1
    exact ⟨fact, hl, Option.some_inj.mp ((hread _ _ hl).symm.trans hf.2)⟩

end Joined

/-! ### Specifications -/

namespace Specification

variable {spec : Specification}

theorem check_eq_ok (h : spec.check = .ok ()) : ∃ given scope,
    Scope.declareAll [] spec.given = .ok given ∧ Match.checkAll given spec.body = .ok scope := by
  obtain ⟨given, hg, h⟩ := Except.bind_eq_ok_iff.mp h
  obtain ⟨scope, hs, -⟩ := Except.bind_eq_ok_iff.mp h
  exact ⟨given, scope, hg, hs⟩

theorem checkStart_of_plans {refs : List FactReference} {plans : List Plan}
    (h : spec.plans schema refs = .ok plans) : spec.checkStart refs = .ok () :=
  (Except.bind_unit_eq_ok_iff.mp h).1

/-- A graph that obeys the roles of a specification obeys what its matches mention. -/
theorem obeys_body {given : Scope} (hg : Scope.declareAll [] spec.given = .ok given)
    (h : ∀ definition ∈ spec.roles, ∀ f g, G.edge f definition.name g →
      G.type f = definition.definingType → G.type g = definition.target) :
    G.Obeys (Match.mentionsAll given spec.body) := by
  obtain ⟨rfl, -, -⟩ := Scope.declareAll_eq_ok hg
  refine fun definition hd => h definition ?_
  rw [roles, List.mem_eraseDups, List.mem_filterMap]
  refine ⟨.role definition, ?_, rfl⟩
  exact List.mem_append_left _ (List.mem_append_right _ hd)

/-- **A specification is compiled to a plan for its answers.** Whatever facts are stored, the plan
denotes the facts that satisfy the matches of the specification, if the catalog knows the types and
roles of the stored facts and tells them apart, and the stored edges lead to the types that the
specification expects. -/
theorem denotes_iff_satisfiedBy (ha : spec.Accepted) {store : Store}
    (hk : schema.Knows store.graph)
    (hroles : ∀ definition ∈ spec.roles, ∀ f g, store.graph.edge f definition.name g →
      store.graph.type f = definition.definingType → store.graph.type g = definition.target)
    {start : List store.Node} {plans : List Plan}
    (hplans : spec.plans schema (start.map (store.graph.reference store.hash)) = .ok plans)
    {branch : Branch} {last : Joined}
    (hjoin : Match.joinAll schema "" []
      (spec.initial schema (start.map (store.graph.reference store.hash))) spec.body = .ok branch)
    (hlast : branch.last = some last) {facts : List store.Node} :
    last.Denotes (store.graph.rows schema store.hash) spec.unknowns facts ↔
      Match.SatisfiedBy store.graph (spec.environment start) spec.body facts := by
  obtain ⟨given, scope, hgiven, hbody⟩ := check_eq_ok ha.check
  have hstart := checkStart_of_plans hplans
  have hne : start ≠ [] := by
    rintro rfl
    exact ha.given.1 (List.eq_nil_of_length_eq_zero (checkStart_eq_ok hstart).1.symm)
  -- any fact will do in the slots behind those of the start facts
  have hst := starts hk hgiven hstart (σ := fun s => start.getD (s - 1) (start.head hne))
    fun i f hf => by rw [Nat.add_sub_cancel, List.getD_eq_getElem?_getD, hf, Option.getD_some]
  have houtcome : Joined.MatchesOutcome store.graph (store.graph.rows schema store.hash) [] scope _
      branch.last spec.body :=
    Match.joinAll_outcome hk hst.start spec.body hst.sound (within_initial hgiven) hbody
      (obeys_body hgiven hroles) hjoin
  rw [hlast] at houtcome
  exact Joined.denotes_iff hst hk (fun _ _ => Store.eq_of_reference_eq) (within_initial hgiven)
    hbody houtcome

/-- The managers of an office whose employment has not ended. -/
def openManagers : Specification :=
  ⟨[⟨"o", "Office"⟩],
    [⟨⟨"m", "Manager"⟩, [.path ⟨[⟨"office", "Office"⟩], "o", []⟩,
      .existential false [⟨⟨"e", "End"⟩, [.path ⟨[⟨"manager", "Manager"⟩], "m", []⟩]⟩]]⟩], []⟩

/-- An office with two managers, of whom the second one has left. -/
def office : Store where
  facts := [⟨1, "Office", "o"⟩, ⟨2, "Manager", "m"⟩, ⟨3, "Manager", "n"⟩, ⟨4, "End", "e"⟩]
  edges := [⟨2, "office", 1⟩, ⟨3, "office", 1⟩, ⟨4, "manager", 3⟩]
  ids_nodup := by decide
  references_nodup := by decide
  edges_stored := by decide

def officeCatalog : Catalog :=
  ⟨[("Office", 1), ("Manager", 2), ("End", 3)], [(2, [("office", 1)]), (3, [("manager", 2)])]⟩

/-- The plan for open managers, with the labels that are bound in it. -/
def openManagersJoined : Joined where
  plan :=
    { inputs := [⟨"o", 1, some 1, "o", some 1, some 2⟩]
      parameters := [.integer 1, .text "o", .integer 1, .integer 2]
      outputs := [⟨"m", "Manager", 2⟩]
      facts := [⟨1, "Office"⟩, ⟨2, "Manager"⟩, ⟨3, "End"⟩]
      edges := [⟨1, 1, 2, 3⟩]
      groups := [⟨[⟨2, 2, 3, 4⟩], []⟩] }
  bindings := [("m", ⟨2, "Manager"⟩), ("o", ⟨1, "Office"⟩)]

/-- The plan for managers who have left. -/
def leftManagersPlan : Plan where
  inputs := [⟨"o", 1, some 1, "o", some 1, some 2⟩]
  parameters := [.integer 1, .text "o", .integer 1, .integer 2]
  outputs := [⟨"m", "Manager", 2⟩, ⟨"e", "End", 3⟩]
  facts := [⟨1, "Office"⟩, ⟨2, "Manager"⟩, ⟨3, "End"⟩]
  edges := [⟨1, 1, 2, 3⟩, ⟨2, 2, 3, 4⟩]
  groups := []

theorem accepted_openManagers : openManagers.Accepted :=
  ⟨"(o: Office) \x7b m: Manager [ m->office: Office = o
      !E \x7b e: End [ e->manager: Manager = m ] \x7d ] \x7d", by cbv⟩

theorem plans_openManagers : openManagers.plans officeCatalog.schema [⟨"Office", "o"⟩] =
    .ok [leftManagersPlan, openManagersJoined.plan] := by cbv

theorem joinAll_openManagers : Match.joinAll officeCatalog.schema "" []
    (openManagers.initial officeCatalog.schema [⟨"Office", "o"⟩]) openManagers.body =
      .ok ⟨[leftManagersPlan], some openManagersJoined⟩ := by cbv

theorem knows_office : officeCatalog.schema.Knows office.graph := by
  have htypes : ∀ f ∈ office.facts,
      (officeCatalog.factTypeId f.reference.type).isSome = true := by decide
  have hroles : ∀ edge ∈ office.edges, ∀ f ∈ office.facts, f.id = edge.successor →
      (officeCatalog.schema.roleOf f.reference.type edge.role).isSome = true := by decide
  exact Catalog.knows (by decide) (by decide) (fun f => htypes f.val f.property)
    fun f role g he => hroles _ he f.val f.property rfl

theorem denotes_openManagers :
    openManagersJoined.Denotes (office.graph.rows officeCatalog.schema office.hash)
      openManagers.unknowns [⟨⟨2, "Manager", "m"⟩, by decide⟩] ∧
    ¬ openManagersJoined.Denotes (office.graph.rows officeCatalog.schema office.hash)
      openManagers.unknowns [⟨⟨3, "Manager", "n"⟩, by decide⟩] := by
  let root : office.Node := ⟨⟨1, "Office", "o"⟩, by decide⟩
  have hroles : ∀ definition ∈ openManagers.roles, ∀ f ∈ office.facts, ∀ g ∈ office.facts,
      (⟨f.id, definition.name, g.id⟩ : StoredEdge) ∈ office.edges →
      f.reference.type = definition.definingType → g.reference.type = definition.target := by
    decide
  have hanswers := fun facts => @denotes_iff_satisfiedBy _ _ accepted_openManagers _ knows_office
    (fun d hd f g => hroles d hd f.val f.property g.val g.property) [root] _ plans_openManagers _ _
    joinAll_openManagers rfl facts
  rw [hanswers, hanswers]
  constructor
  · refine ⟨_, _, rfl, rfl, ⟨?_, ?_, trivial⟩, rfl⟩
    · exact ⟨_, root, root, rfl, rfl, ⟨rfl, root, by decide, rfl, rfl⟩, rfl, rfl⟩
    · -- no fact names the first manager
      refine iff_of_false (by decide) ?_
      rintro ⟨_, e, _, rfl, -, ⟨⟨f, m, top, hf, hm, ⟨-, g, hedge, -, hg⟩, -, htop⟩, -⟩, -⟩
      cases hm
      obtain rfl : g = _ := hg.trans htop.symm
      have hstored : (⟨f.val.id, "manager", 2⟩ : StoredEdge) ∈ office.edges := hedge
      simp [office] at hstored
  · rintro ⟨f, others, he, -, ⟨-, hleft, -⟩, -⟩
    cases he
    refine absurd (hleft.mpr ?_) (by decide)
    refine ⟨[⟨⟨4, "End", "e"⟩, by decide⟩], _, _, rfl, rfl, ⟨?_, trivial⟩, rfl⟩
    exact ⟨_, _, _, rfl, rfl, ⟨rfl, _, by decide, rfl, rfl⟩, rfl, rfl⟩

end Specification

end FactGraph
