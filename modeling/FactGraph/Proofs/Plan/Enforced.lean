import FactGraph.Proofs.Plan.Answers
import FactGraph.Proofs.Plan.Steps

/-! # Path conditions that constrain the answers

A match may have several path conditions. The first of them binds the unknown to the slot at its
end; every later one closes a cycle, as its last edge leads to the slot of the unknown. So wherever
the edges of the plan are stored, the roles of both sides lead to the same fact. A later path
condition without roles has no edge that could lead anywhere, and constrains nothing.

* `PathCondition.includes_of_join`: what a plan says of a path condition that was joined.
* `Match.includes_of_joinAll`: the same of all path conditions of matches.
* `Specification.conditions_enforced`: every answer satisfies the path conditions, but for later
  ones without roles. -/

namespace FactGraph

variable {Node : Type}

/-! ### Roles that lead to a fact -/

/-- Roles lead up from a fact to another one, each of them from a fact whose type has the number of
the type that declares it. -/
def Graph.LeadsUp (G : Graph Node) (number : String → Option Int) :
    (type : String) → (f : Node) → List Role → (top : Node) → Prop
  | _, f, [], top => f = top
  | type, f, role :: rest, top => number (G.type f) = number type ∧
      ∃ g, G.edge f role.name g ∧ Graph.LeadsUp G number role.target g rest top

/-- No number is given to two roles. -/
def Schema.NumbersRolesApart (schema : Schema) : Prop := ∀ typeId role typeId' role' id,
  schema.roleId typeId role = some id → schema.roleId typeId' role' = some id →
    typeId = typeId' ∧ role = role'

theorem Catalog.numbersRolesApart {catalog : Catalog} (hr : (catalog.roles.map Prod.snd).Nodup) :
    catalog.schema.NumbersRolesApart :=
  fun _ _ _ _ _ h h' => Prod.mk.inj (congrArg Prod.fst
    (List.inj_on_of_nodup_map hr (mem_roles_of_roleId h) (mem_roles_of_roleId h') rfl))

namespace Graph

variable {G : Graph Node} {schema : Schema} {hash : Node → String} {type : String} {f top : Node}

theorem LeadsUp.of_own_type {number : String → Option Int} : ∀ {roles : List Role},
    G.LeadsUp number type f roles top → G.LeadsUp number (G.type f) f roles top
  | [], h => h
  | _ :: _, h => ⟨rfl, h.2⟩

theorem leadsUp_of_up (hs : schema.NumbersRolesApart) : ∀ {roles : List Role} {type : String}
    {ids : List (Int × String)} {f : Node}, resolveRoles schema type roles = some ids →
    (G.rows schema hash).Up (ids.map Prod.fst) f top → G.LeadsUp schema.factTypeId type f roles top
  | [], _, _, _, h, hu => by
    cases h
    exact hu
  | role :: rest, type, ids, f, h, hu => by
    obtain ⟨id, others, hr, hrest, rfl⟩ := resolveRoles_cons h
    obtain ⟨g, ⟨name, hstored, hedge⟩, hu⟩ := hu
    obtain ⟨typeId, htype, hid⟩ := Option.bind_eq_some_iff.mp hr
    obtain ⟨typeId', htype', hid'⟩ := Option.bind_eq_some_iff.mp hstored
    obtain ⟨rfl, rfl⟩ := hs _ _ _ _ _ hid' hid
    exact ⟨htype'.trans htype.symm, g, hedge, leadsUp_of_up hs hrest hu⟩

end Graph

/-! ### Stored edges -/

/-- All unconditional edges of a plan are stored between the facts in their slots. -/
structure Plan.EdgesHold (R : Rows Node) (plan : Plan) (parameters : List Parameter)
    (σ : Nat → Node) : Prop where
  positions : plan.parameters <+: parameters
  edges : ∀ edge ∈ plan.edges, edge.Holds R parameters σ

variable {R : Rows Node} {schema : Schema} {stem : String} {σ : Nat → Node}
  {parameters : List Parameter}

theorem Plan.EdgesHold.of_prolongs {old new : Plan} (h : new.EdgesHold R parameters σ)
    (hp : old.Prolongs new) : old.EdgesHold R parameters σ :=
  ⟨hp.parameters.trans h.positions, fun edge hm => h.edges edge (hp.edges.subset hm)⟩

theorem Plan.Holds.edgesHold {plan : Plan} (h : plan.Holds R σ) :
    plan.EdgesHold R plan.parameters σ :=
  ⟨List.prefix_refl _, (Plan.Group.holds_iff.mp h.2).1⟩

theorem edge_of_edgesHold {plan edged : Plan} {α : Type} {id : Int} {type : String}
    {unknown : Option Plan.Fact} {rest : List α} {predecessor successor : Nat}
    (h : (nextSlot (plan.addParameter (.integer id)).1 type unknown rest).1.addEdge predecessor
      successor (plan.addParameter (.integer id)).2 [] = .ok edged)
    (he : edged.EdgesHold R parameters σ) : R.edge id (σ successor) (σ predecessor) := by
  obtain ⟨-, hparameters, -⟩ := nextSlot_eq (plan.addParameter (.integer id)).1 type unknown rest
  cases h
  obtain ⟨role, hrole, hedge⟩ := he.edges _ (List.mem_append_right _ List.mem_cons_self)
  have hat := Plan.parameterAt_of_prefix he.positions
    (hparameters ▸ Plan.parameterAt_addParameter plan (.integer id))
  cases hat.symm.trans hrole
  exact hedge

/-! ### Joined roles -/

theorem up_of_ascend (R : Rows Node) {unknown : Option Plan.Fact} : ∀ {roles : List Role}
    {plan new : Plan} {slot last : Nat} {type : String},
    ascend schema [] unknown plan slot type roles = .ok (some (new, last)) →
    ∃ ids, resolveRoles schema type roles = some ids ∧ ∀ parameters σ,
      new.EdgesHold R parameters σ → R.Up (ids.map Prod.fst) (σ slot) (σ last)
  | [], _, _, _, _, _, h => by
    cases h
    exact ⟨[], rfl, fun _ _ _ => rfl⟩
  | role :: rest, plan, new, slot, last, type, h => by
    rw [ascend] at h
    rcases hr : schema.roleOf type role.name with _ | id <;> simp only [hr] at h
    · cases h
    obtain ⟨edged, hadd, hrest⟩ := Except.bind_eq_ok_iff.mp h
    obtain ⟨ids, hids, hup⟩ := up_of_ascend R hrest
    refine ⟨(id, type) :: ids, by simp [resolveRoles, hr, hids], fun parameters σ he => ?_⟩
    exact ⟨_, edge_of_edgesHold hadd (he.of_prolongs (prolongs_of_ascend hrest)),
      hup parameters σ he⟩

theorem up_of_descend (R : Rows Node) {unknown : Option Plan.Fact} : ∀ {ids : List (Int × String)}
    {plan new : Plan} {slot last : Nat}, descend [] unknown plan slot ids = .ok (new, last) →
    ∀ parameters σ, new.EdgesHold R parameters σ →
      R.Up (ids.map Prod.fst).reverse (σ last) (σ slot)
  | [], _, _, _, _, h, _, _, _ => by
    cases h
    rfl
  | (id, type) :: rest, plan, new, slot, last, h, parameters, σ, he => by
    rw [descend] at h
    obtain ⟨edged, hadd, hrest⟩ := Except.bind_eq_ok_iff.mp h
    rw [List.map_cons, List.reverse_cons, Rows.up_append]
    exact ⟨_, up_of_descend R hrest parameters σ he, Rows.up_singleton.mpr
      (edge_of_edgesHold hadd (he.of_prolongs (prolongs_of_descend hrest)))⟩

theorem last_of_ascend {path : List Nat} {fact : Plan.Fact} : ∀ {roles : List Role}
    {plan new : Plan} {slot last : Nat} {type : String}, roles ≠ [] →
    ascend schema path (some fact) plan slot type roles = .ok (some (new, last)) → last = fact.slot
  | [], _, _, _, _, _, hne, _ => absurd rfl hne
  | role :: rest, plan, new, slot, last, type, _, h => by
    rw [ascend] at h
    rcases hr : schema.roleOf type role.name with _ | id <;> simp only [hr] at h
    · cases h
    obtain ⟨edged, -, hrest⟩ := Except.bind_eq_ok_iff.mp h
    rcases rest with _ | ⟨next, rest⟩
    · cases hrest
      rfl
    · exact last_of_ascend (List.cons_ne_nil _ _) hrest

theorem last_of_descend {path : List Nat} {fact : Plan.Fact} : ∀ {ids : List (Int × String)}
    {plan new : Plan} {slot last : Nat}, ids ≠ [] →
    descend path (some fact) plan slot ids = .ok (new, last) → last = fact.slot
  | [], _, _, _, _, hne, _ => absurd rfl hne
  | (id, type) :: rest, plan, new, slot, last, _, h => by
    rw [descend] at h
    obtain ⟨edged, -, hrest⟩ := Except.bind_eq_ok_iff.mp h
    rcases rest with _ | ⟨next, rest⟩
    · cases hrest
      rfl
    · exact last_of_descend (List.cons_ne_nil _ _) hrest

/-! ### Path conditions -/

/-- A path condition has a role. -/
def PathCondition.HasRoles (condition : PathCondition) : Prop :=
  condition.rolesLeft ≠ [] ∨ condition.rolesRight ≠ []

/-- Wherever the edges of the plan are stored, the roles of both sides of a path condition lead to
the same fact. -/
def Joined.Ties (R : Rows Node) (schema : Schema) (unknown : Label) (condition : PathCondition)
    (joined : Joined) : Prop :=
  ∃ fact right idsLeft idsRight, joined.bindings.lookup unknown.name = some fact ∧
    joined.bindings.lookup condition.labelRight = some right ∧
    resolveRoles schema unknown.type condition.rolesLeft = some idsLeft ∧
    resolveRoles schema right.type condition.rolesRight = some idsRight ∧
    ∀ parameters σ, joined.plan.EdgesHold R parameters σ →
      R.Meet (idsLeft.map Prod.fst) (idsRight.map Prod.fst) (σ fact.slot) (σ right.slot)

/-- A path condition has been joined: both of its labels are bound, the input of the right one is
used, and both sides are tied together if the condition is `enforced`. -/
structure Joined.Includes (R : Rows Node) (schema : Schema) (unknown : Label)
    (condition : PathCondition) (enforced : Prop) (joined : Joined) : Prop where
  bound : (joined.bindings.lookup unknown.name).isSome = true
  right : (joined.bindings.lookup condition.labelRight).isSome = true
  used : joined.plan.Uses condition.labelRight
  ties : enforced → joined.Ties R schema unknown condition

variable {unknown : Label} {condition : PathCondition} {enforced : Prop} {a b joined new : Joined}

theorem Joined.Ties.of_prolongs (h : a.Ties R schema unknown condition) (hp : a.Prolongs b) :
    b.Ties R schema unknown condition := by
  obtain ⟨fact, right, idsLeft, idsRight, hfact, hright, hleft, hup, hmeet⟩ := h
  exact ⟨fact, right, idsLeft, idsRight, hp.bindings _ _ hfact, hp.bindings _ _ hright, hleft, hup,
    fun parameters σ he => hmeet parameters σ (he.of_prolongs hp.plan)⟩

theorem Joined.Prolongs.isSome_lookup (hp : a.Prolongs b) {name : String}
    (h : (a.bindings.lookup name).isSome = true) : (b.bindings.lookup name).isSome = true := by
  obtain ⟨fact, hl⟩ := Option.isSome_iff_exists.mp h
  rw [hp.bindings name fact hl]
  rfl

theorem Joined.Includes.weaken {enforced' : Prop}
    (h : joined.Includes R schema unknown condition enforced) (he : enforced' → enforced) :
    joined.Includes R schema unknown condition enforced' :=
  ⟨h.bound, h.right, h.used, fun h' => h.ties (he h')⟩

theorem Joined.Includes.of_prolongs (h : a.Includes R schema unknown condition enforced)
    (hp : a.Prolongs b) : b.Includes R schema unknown condition enforced where
  bound := hp.isSome_lookup h.bound
  right := hp.isSome_lookup h.right
  used := hp.plan.uses h.used
  ties he := (h.ties he).of_prolongs hp

/-- The slot at the end of a path condition is that of its unknown, if that was bound before and the
path condition has a role. -/
theorem PathCondition.last_eq_of_bound {used middle final : Plan} {fact right : Plan.Fact}
    {slot last : Nat} {roles : List (Int × String)} (hroles : condition.HasRoles)
    (hfact : joined.bindings.lookup unknown.name = some fact)
    (hup : ascend schema []
      (if condition.rolesLeft.isEmpty then joined.bindings.lookup unknown.name else none)
      used right.slot right.type condition.rolesRight = .ok (some (middle, slot)))
    (hleft : resolveRoles schema unknown.type condition.rolesLeft = some roles)
    (hdown : descend [] (joined.bindings.lookup unknown.name) middle slot roles.reverse =
      .ok (final, last)) : last = fact.slot := by
  by_cases hempty : condition.rolesLeft = []
  · -- the edge of the last role on the right side leads to the unknown
    rw [hempty] at hleft hup
    cases hleft
    cases hdown
    rw [hfact] at hup
    exact last_of_ascend (hroles.resolve_left (absurd hempty)) hup
  · have hne : roles ≠ [] := fun h => hempty (List.eq_nil_of_length_eq_zero
      ((length_of_resolveRoles hleft).symm.trans (List.length_eq_zero_iff.mpr h)))
    rw [hfact] at hdown
    exact last_of_descend (by simpa using hne) hdown

/-- **Both sides of a path condition are tied together** if its unknown was not bound before, or if
it has a role, whose edge can close the cycle. -/
theorem PathCondition.ties_of_join {branch : Branch}
    (h : condition.join schema stem [] unknown joined = .ok branch)
    (hl : branch.last = some new)
    (he : joined.bindings.lookup unknown.name = none ∨ condition.HasRoles) :
    new.Ties R schema unknown condition := by
  have hbindings := (prolongs_of_join h hl).bindings
  obtain ⟨used, right, middle, slot, roles, final, last, -, hright, hup, hleft, hdown, hnew⟩ :=
    exists_of_join h hl
  obtain ⟨idsRight, hidsRight, hr⟩ := up_of_ascend R hup
  have hprolongs := prolongs_of_descend hdown
  -- the slot at the end of the path is the slot of the unknown
  obtain ⟨fact, hfact, hslot, hholds⟩ : ∃ fact, new.bindings.lookup unknown.name = some fact ∧
      last = fact.slot ∧ ∀ parameters σ, new.plan.EdgesHold R parameters σ →
        final.EdgesHold R parameters σ := by
    rcases hnew with ⟨hbound, rfl⟩ | ⟨-, rfl⟩
    · obtain ⟨fact, hfact⟩ := Option.ne_none_iff_exists'.mp hbound
      exact ⟨fact, hfact, last_eq_of_bound (he.resolve_left hbound) hfact hup hleft hdown,
        fun _ _ h => h⟩
    · exact ⟨_, List.lookup_cons_self, rfl, fun _ _ h => ⟨h.positions, h.edges⟩⟩
  refine ⟨fact, right, roles, idsRight, hfact, hbindings _ _ hright, hleft, hidsRight,
    fun parameters σ h => ?_⟩
  have hfinal := hholds parameters σ h
  have hdownwards := up_of_descend R hdown parameters σ hfinal
  rw [List.map_reverse, List.reverse_reverse, hslot] at hdownwards
  exact ⟨σ slot, hdownwards, hr parameters σ (hfinal.of_prolongs hprolongs)⟩

/-- **What a plan says of a path condition that was joined.** -/
theorem PathCondition.includes_of_join {branch : Branch}
    (h : condition.join schema stem [] unknown joined = .ok branch)
    (hl : branch.last = some new) : new.Includes R schema unknown condition
      (joined.bindings.lookup unknown.name = none ∨ condition.HasRoles) := by
  obtain ⟨right, hright, hused⟩ := used_of_join h hl
  have hprolongs := prolongs_of_join h hl
  refine ⟨?_, hprolongs.isSome_lookup (Option.isSome_of_mem hright), hused, ties_of_join h hl⟩
  rcases bindings_of_join h hl with ⟨hbound, hb⟩ | ⟨fact, hb⟩
  · rw [hb]
    exact Option.isSome_iff_ne_none.mpr hbound
  · rw [hb, List.lookup_cons_self]
    rfl

/-! ### Conditions and matches -/

namespace Condition

variable {path : List Nat} {branch : Branch}

theorem bindings_of_join {holds : Bool} {block : List Match}
    (h : (existential holds block).join schema stem path unknown joined = .ok branch)
    (hl : branch.last = some new) : new.bindings = joined.bindings := by
  cases holds with
  | true =>
    obtain ⟨inner, -, h⟩ := Except.bind_eq_ok_iff.mp h
    cases h
    obtain ⟨last, -, rfl⟩ := Option.map_eq_some_iff.mp hl
    rfl
  | false =>
    obtain ⟨failing, -, h⟩ := Except.bind_eq_ok_iff.mp h
    obtain ⟨⟨opened, inner⟩, -, h⟩ := Except.bind_eq_ok_iff.mp h
    obtain ⟨absent, -, h⟩ := Except.bind_eq_ok_iff.mp h
    rcases ha : absent.last with _ | last <;> simp only [ha] at h
    · cases h
      cases hl
      rfl
    · cases h
      cases hl
      rfl

theorem lookup_of_join {condition : Condition}
    (h : condition.join schema stem path unknown joined = .ok branch)
    (hl : branch.last = some new) {name : String} (hne : name ≠ unknown.name) :
    new.bindings.lookup name = joined.bindings.lookup name := by
  cases condition with
  | path condition =>
    rcases PathCondition.bindings_of_join h hl with ⟨-, hb⟩ | ⟨fact, hb⟩
    · rw [hb]
    · rw [hb, List.lookup_cons, beq_eq_false_iff_ne.mpr hne]
  | existential holds block => rw [bindings_of_join h hl]

theorem lookup_of_joinAll {name : String} (hne : name ≠ unknown.name) :
    ∀ {conditions : List Condition} {joined : Joined} {branch : Branch},
    joinAll schema stem path unknown joined conditions = .ok branch →
    ∀ last ∈ branch.last, last.bindings.lookup name = joined.bindings.lookup name
  | [], _, _, h => by
    cases h
    rintro _ ⟨⟩
    rfl
  | condition :: rest, joined, branch, h => by
    obtain ⟨first, hfirst, h⟩ := Except.bind_eq_ok_iff.mp h
    refine Branch.forall_last_of_andThen h fun b hb others ho new hn => ?_
    rw [lookup_of_joinAll hne ho new hn, lookup_of_join hfirst hb hne]

/-- **What a plan says of the path conditions of an unknown**: of the first one, if the unknown was
not bound before, and of those that have roles. -/
theorem includes_of_joinAll : ∀ {conditions : List Condition} {joined : Joined} {branch : Branch},
    joinAll schema stem [] unknown joined conditions = .ok branch → ∀ last ∈ branch.last,
    (∀ condition ∈ Match.paths ⟨unknown, conditions⟩,
      last.Includes R schema unknown condition condition.HasRoles) ∧
    (joined.bindings.lookup unknown.name = none →
      ∀ condition ∈ (Match.paths ⟨unknown, conditions⟩).head?,
        last.Includes R schema unknown condition True)
  | [], _, _, _ =>
    fun _ _ => ⟨fun _ hm => absurd hm List.not_mem_nil, fun _ _ hm => by cases hm⟩
  | condition :: rest, joined, branch, h => by
    obtain ⟨first, hfirst, h⟩ := Except.bind_eq_ok_iff.mp h
    refine Branch.forall_last_of_andThen h fun b hb others ho new hn => ?_
    obtain ⟨hall, hhead⟩ := includes_of_joinAll ho new hn
    have hprolongs := prolongs_of_joinAll ho hn
    cases condition with
    | path condition =>
      have hincludes := (PathCondition.includes_of_join (R := R) hfirst hb).of_prolongs hprolongs
      refine ⟨fun other hm => ?_, fun hnone other hm => ?_⟩
      · rcases List.mem_cons.mp hm with rfl | hm
        · exact hincludes.weaken Or.inr
        · exact hall other hm
      · cases hm
        exact hincludes.weaken fun _ => Or.inl hnone
    | existential holds block =>
      -- the unknown is not bound by the condition either
      rw [bindings_of_join hfirst hb] at hhead
      exact ⟨hall, hhead⟩

end Condition

/-- **What a plan says of the path conditions of matches** whose unknowns have names of their
own. -/
theorem Match.includes_of_joinAll : ∀ {block : List Match} {joined : Joined} {branch : Branch},
    joinAll schema stem [] joined block = .ok branch →
    (block.map fun m => m.unknown.name).Nodup →
    (∀ m ∈ block, joined.bindings.lookup m.unknown.name = none) →
    ∀ last ∈ branch.last, ∀ m ∈ block,
      (∀ condition ∈ m.paths, last.Includes R schema m.unknown condition condition.HasRoles) ∧
        ∀ condition ∈ m.paths.head?, last.Includes R schema m.unknown condition True
  | [], _, _, _, _, _ => fun _ _ _ hm => absurd hm List.not_mem_nil
  | ⟨unknown, conditions⟩ :: rest, joined, branch, h, hn, hfresh => by
    obtain ⟨first, hfirst, h⟩ := Except.bind_eq_ok_iff.mp h
    refine Branch.forall_last_of_andThen h fun b hb others ho new hnew => ?_
    obtain ⟨hnotin, hn⟩ := List.nodup_cons.mp hn
    have hprolongs := prolongs_of_joinAll ho hnew
    rw [List.forall_mem_cons]
    constructor
    · obtain ⟨hall, hhead⟩ := Condition.includes_of_joinAll (R := R) hfirst b hb
      exact ⟨fun condition hm => (hall condition hm).of_prolongs hprolongs, fun condition hm =>
        (hhead (hfresh _ List.mem_cons_self) condition hm).of_prolongs hprolongs⟩
    · refine includes_of_joinAll ho hn (fun m hm => ?_) new hnew
      have hne : m.unknown.name ≠ unknown.name := fun he =>
        hnotin (List.mem_map.mpr ⟨m, hm, he⟩)
      rw [Condition.lookup_of_joinAll hne hfirst b hb]
      exact hfresh m (List.mem_cons_of_mem _ hm)

/-! ### Answers -/

/-- A path condition on an unknown is satisfied: from the facts that its labels read, the roles of
both sides lead to the same fact. -/
def PathCondition.Meets (G : Graph Node) (number : String → Option Int)
    (read : String → Option Node) (unknown : Label) (condition : PathCondition) : Prop :=
  ∃ f g top, read unknown.name = some f ∧ read condition.labelRight = some g ∧
    G.LeadsUp number unknown.type f condition.rolesLeft top ∧
    G.LeadsUp number (G.type g) g condition.rolesRight top

/-- The unknowns of a specification read the facts of an answer, and the given labels, as far as
they read any, facts that are stored as the start facts are. -/
structure Specification.Reads (spec : Specification) (schema : Schema)
    (start : List FactReference) (store : Store) (facts : List store.Node)
    (read : String → Option store.Node) : Prop where
  unknowns : List.Forall₂ (fun label f => read label.name = some f) spec.unknowns facts
  given : ∀ (i : Nat) (label : Label) (ref : FactReference), spec.given[i]? = some label →
    start[i]? = some ref → ∀ f ∈ read label.name,
      schema.factTypeId (store.graph.type f) = schema.factTypeId label.type ∧
        store.hash f = ref.hash

namespace Specification

variable {spec : Specification} {start : List FactReference} {store : Store}

/-- The labels to which the path conditions of the matches refer. -/
def referred (spec : Specification) : List String :=
  spec.unknowns.map Label.name ++
    spec.body.flatMap fun m => m.paths.map PathCondition.labelRight

/-- An input of a start that is used is pinned to the type and hash of its start fact. -/
theorem pinned_of_uses {plan : Plan} (hn : (spec.given.map Label.name).Nodup)
    (hlen : start.length = spec.given.length) (hd : plan.DerivesFrom (spec.inputs schema start))
    {i : Nat} {label : Label} {ref : FactReference} (hl : spec.given[i]? = some label)
    (hr : start[i]? = some ref) (hu : plan.Uses label.name)
    (hp : ∀ input ∈ plan.inputs, input.Pinned R plan.parameters σ) :
    R.typeId (σ (i + 1)) = schema.factTypeId label.type ∧ R.hash (σ (i + 1)) = ref.hash := by
  obtain ⟨derived, hm, hderives⟩ := hd.exists_derived (mem_inputs_of_getElem? hl hr)
  -- no other input has the label
  have hfound : plan.input? label.name = some derived := by
    obtain ⟨other, ho⟩ : ∃ other, plan.input? label.name = some other :=
      Option.isSome_iff_exists.mp (List.find?_isSome.mpr
        ⟨derived, hm, by rw [hderives.label_eq, beq_self_eq_true]⟩)
    have hlabel : other.label = label.name := by simpa using List.find?_some ho
    rw [ho, List.inj_on_of_nodup_map (hd.map_label ▸ (distinct_inputs hn hlen).labels)
      (List.mem_of_find?_eq_some ho) hm (hlabel.trans hderives.label_eq.symm)]
  obtain ⟨htype, hhash⟩ := hp derived hm
  have hused := hu derived hfound
  obtain rfl | ⟨id, position, position', hid, hat, hat', rfl⟩ := hderives
  · cases hused
  · obtain ⟨id', hget, hrow⟩ := htype position rfl
    cases hat.symm.trans hget
    have hhash' := (hhash position' rfl).symm.trans hat'
    exact ⟨hrow.trans hid.symm, by simpa using hhash'⟩

/-- What the labels read to which the path conditions refer. -/
def reading (spec : Specification) (joined : Joined) (σ : Nat → Node) (name : String) :
    Option Node :=
  if name ∈ spec.referred then (joined.bindings.lookup name).map fun fact => σ fact.slot else none

theorem reading_eq_some {name : String} (hm : name ∈ spec.referred) {fact : Plan.Fact}
    (hl : joined.bindings.lookup name = some fact) :
    spec.reading joined σ name = some (σ fact.slot) := by
  rw [reading, if_pos hm, hl, Option.map_some]

theorem unknown_mem_referred {m : Match} (hm : m ∈ spec.body) :
    m.unknown.name ∈ spec.referred :=
  List.mem_append_left _ (List.mem_map_of_mem (List.mem_map_of_mem hm))

theorem labelRight_mem_referred {m : Match} (hm : m ∈ spec.body) {condition : PathCondition}
    (hc : condition ∈ m.paths) : condition.labelRight ∈ spec.referred :=
  List.mem_append_right _ (List.mem_flatMap.mpr ⟨m, hm, List.mem_map_of_mem hc⟩)

variable {G : Graph Node} {hash : Node → String} {m : Match}

/-- **A path condition that is tied together is satisfied** where the edges of the plan are
stored. -/
theorem meets_of_ties (hs : schema.NumbersRolesApart) (hm : m ∈ spec.body)
    (hc : condition ∈ m.paths) (h : joined.Ties (G.rows schema hash) schema m.unknown condition)
    (he : joined.plan.EdgesHold (G.rows schema hash) parameters σ) :
    condition.Meets G schema.factTypeId (spec.reading joined σ) m.unknown := by
  obtain ⟨fact, right, idsLeft, idsRight, hfact, hright, hleft, hup, hmeet⟩ := h
  obtain ⟨top, hl, hr⟩ := hmeet parameters σ he
  exact ⟨σ fact.slot, σ right.slot, top, reading_eq_some (unknown_mem_referred hm) hfact,
    reading_eq_some (labelRight_mem_referred hm hc) hright, Graph.leadsUp_of_up hs hleft hl,
    (Graph.leadsUp_of_up hs hup hr).of_own_type⟩

/-- Without roles, a path condition is satisfied exactly if both labels read the same fact. -/
theorem meets_iff_of_not_hasRoles {number : String → Option Int} {read : String → Option Node}
    {unknown : Label} (hr : ¬ condition.HasRoles) (hread : (read unknown.name).isSome = true) :
    condition.Meets G number read unknown ↔ read unknown.name = read condition.labelRight := by
  obtain ⟨hleft, hright⟩ := not_or.mp hr
  rw [not_not] at hleft hright
  unfold PathCondition.Meets
  rw [hleft, hright]
  constructor
  · rintro ⟨f, g, top, hf, hg, rfl, rfl⟩
    rw [hf, hg]
  · intro h
    obtain ⟨f, hf⟩ := Option.isSome_iff_exists.mp hread
    exact ⟨f, f, f, hf, h ▸ hf, rfl, rfl⟩

/-- If only later path conditions without roles can fail, all are satisfied exactly if the labels of
these read the same facts. -/
theorem forall_meets_iff {number : String → Option Int} {read : String → Option Node}
    (hsome : ∀ condition ∈ m.paths, (read m.unknown.name).isSome = true)
    (hfirst : ∀ condition ∈ m.paths.head?, condition.Meets G number read m.unknown)
    (hroles : ∀ condition ∈ m.paths, condition.HasRoles →
      condition.Meets G number read m.unknown) :
    (∀ condition ∈ m.paths, condition.Meets G number read m.unknown) ↔
      ∀ condition ∈ m.paths.tail, ¬ condition.HasRoles →
        read m.unknown.name = read condition.labelRight := by
  rcases hpaths : m.paths with _ | ⟨first, later⟩ <;> rw [hpaths] at hsome hfirst hroles
  · simp
  · have hlater : ∀ condition ∈ later, condition.Meets G number read m.unknown ↔
        (¬ condition.HasRoles → read m.unknown.name = read condition.labelRight) := by
      intro condition hc
      have hmem := List.mem_cons_of_mem first hc
      by_cases hr : condition.HasRoles
      · exact iff_of_true (hroles condition hmem hr) fun hn => absurd hr hn
      · rw [meets_iff_of_not_hasRoles hr (hsome condition hmem)]
        exact ⟨fun h _ => h, fun h => h hr⟩
    rw [List.forall_mem_cons, and_iff_right (hfirst first rfl), List.tail_cons]
    exact forall₂_congr hlater

/-- No unknown is bound at the start, if the given labels and the unknowns have names of their
own. -/
theorem lookup_initial_unknown (hn : ((spec.given ++ spec.unknowns).map Label.name).Nodup)
    (hm : m ∈ spec.body) : (spec.initial schema start).bindings.lookup m.unknown.name = none := by
  rw [List.map_append, List.nodup_append] at hn
  obtain ⟨hgiven, -, hdisjoint⟩ := hn
  refine Option.eq_none_iff_forall_ne_some.mpr fun fact hl => ?_
  obtain ⟨i, label, hlabel, hname, -⟩ := (lookup_initial_iff hgiven).mp hl
  have hunknown : m.unknown ∈ spec.unknowns := List.mem_map_of_mem hm
  exact hdisjoint _ (List.mem_map_of_mem (List.mem_of_getElem? hlabel)) _
    (List.mem_map_of_mem hunknown) hname

section

variable {last : Joined} {facts : List store.Node} {τ : Nat → store.Node}

/-- The unknowns read the facts that are denoted, and the given labels what their inputs are pinned
to. -/
theorem reads_reading (hn : ((spec.given ++ spec.unknowns).map Label.name).Nodup)
    (hlen : start.length = spec.given.length)
    (hp : Joined.Prolongs (spec.initial schema start) last)
    (hu : ∀ m ∈ spec.body, ∀ condition ∈ m.paths, last.plan.Uses condition.labelRight)
    (hpinned : ∀ input ∈ last.plan.inputs,
      input.Pinned (store.graph.rows schema store.hash) last.plan.parameters τ)
    (hfacts : List.Forall₂ (fun label f => ∃ fact, last.bindings.lookup label.name = some fact ∧
      τ fact.slot = f) spec.unknowns facts) :
    spec.Reads schema start store facts (spec.reading last τ) := by
  rw [List.map_append, List.nodup_append] at hn
  obtain ⟨hgiven, -, hdisjoint⟩ := hn
  constructor
  · have hreferred : ∀ label ∈ spec.unknowns, label.name ∈ spec.referred := fun label hl =>
      List.mem_append_left _ (List.mem_map_of_mem hl)
    refine ((List.forall₂_and_left _ _).mpr ⟨hreferred, hfacts⟩).imp ?_
    rintro label f ⟨hm, fact, hl, rfl⟩
    exact reading_eq_some hm hl
  · intro i label ref hl hr f hf
    have hname : label.name ∈ spec.given.map Label.name :=
      List.mem_map_of_mem (List.mem_of_getElem? hl)
    unfold reading at hf
    split_ifs at hf with hm
    · have hbound := hp.bindings label.name ⟨i + 1, label.type⟩
        ((lookup_initial_iff hgiven).mpr ⟨i, label, hl, rfl, rfl⟩)
      rw [hbound] at hf
      cases hf
      -- a given label is referred to on a right side only
      rcases List.mem_append.mp hm with hm | hm
      · exact absurd rfl (hdisjoint _ hname _ hm)
      · obtain ⟨m, hbody, hm⟩ := List.mem_flatMap.mp hm
        obtain ⟨condition, hc, hright⟩ := List.mem_map.mp hm
        exact pinned_of_uses hgiven hlen hp.plan.inputs hl hr (hright ▸ hu m hbody condition hc)
          hpinned
    · cases hf

end

/-- **Path conditions constrain the answers.** Let the given labels and the unknowns have names of
their own, and the roles numbers of their own. Then every answer that is denoted satisfies the first
path condition of each match, and the later ones that have roles. It satisfies all path conditions
exactly if the labels of the later ones without roles happen to read the same facts. -/
theorem conditions_enforced (hn : ((spec.given ++ spec.unknowns).map Label.name).Nodup)
    (hs : schema.NumbersRolesApart) {plans : List Plan}
    (hplans : spec.plans schema start = .ok plans) {branch : Branch} {last : Joined}
    (hjoin : Match.joinAll schema "" [] (spec.initial schema start) spec.body = .ok branch)
    (hlast : branch.last = some last) {facts : List store.Node}
    (hd : last.Denotes (store.graph.rows schema store.hash) spec.unknowns facts) :
    ∃ read, spec.Reads schema start store facts read ∧
      (∀ m ∈ spec.body, ∀ condition ∈ m.paths.head?,
        condition.Meets store.graph schema.factTypeId read m.unknown) ∧
      (∀ m ∈ spec.body, ∀ condition ∈ m.paths.tail, condition.HasRoles →
        condition.Meets store.graph schema.factTypeId read m.unknown) ∧
      ((∀ m ∈ spec.body, ∀ condition ∈ m.paths,
          condition.Meets store.graph schema.factTypeId read m.unknown) ↔
        ∀ m ∈ spec.body, ∀ condition ∈ m.paths.tail, ¬ condition.HasRoles →
          read m.unknown.name = read condition.labelRight) := by
  have hlen := (checkStart_eq_ok (checkStart_of_plans hplans)).1
  obtain ⟨τ, hholds, hfacts⟩ := hd
  have hedges := hholds.edgesHold
  have hunknowns : (spec.body.map fun m => m.unknown.name).Nodup := by
    rw [List.map_append] at hn
    simpa [unknowns, Function.comp_def] using hn.of_append_right
  have hincludes := Match.includes_of_joinAll (R := store.graph.rows schema store.hash) hjoin
    hunknowns (fun m hm => lookup_initial_unknown hn hm) last hlast
  have hfirst : ∀ m ∈ spec.body, ∀ condition ∈ m.paths.head?,
      condition.Meets store.graph schema.factTypeId (spec.reading last τ) m.unknown :=
    fun m hm condition hc => meets_of_ties hs hm (List.mem_of_mem_head? hc)
      (((hincludes m hm).2 condition hc).ties trivial) hedges
  have hroles : ∀ m ∈ spec.body, ∀ condition ∈ m.paths, condition.HasRoles →
      condition.Meets store.graph schema.factTypeId (spec.reading last τ) m.unknown :=
    fun m hm condition hc hr => meets_of_ties hs hm hc
      (((hincludes m hm).1 condition hc).ties hr) hedges
  have hsome : ∀ m ∈ spec.body, ∀ condition ∈ m.paths,
      (spec.reading last τ m.unknown.name).isSome = true := by
    intro m hm condition hc
    obtain ⟨fact, hl⟩ := Option.isSome_iff_exists.mp ((hincludes m hm).1 condition hc).bound
    rw [reading_eq_some (unknown_mem_referred hm) hl, Option.isSome_some]
  have hused : ∀ m ∈ spec.body, ∀ condition ∈ m.paths, last.plan.Uses condition.labelRight :=
    fun m hm condition hc => ((hincludes m hm).1 condition hc).used
  refine ⟨spec.reading last τ, reads_reading hn hlen (Match.prolongs_of_joinAll hjoin hlast) hused
    hholds.1 hfacts, hfirst, fun m hm c hc => hroles m hm c (List.mem_of_mem_tail hc),
    forall₂_congr fun m hm => ?_⟩
  exact forall_meets_iff (hsome m hm) (hfirst m hm) (hroles m hm)

/-- Pairs of projects of a root, with one more path condition on the second project. -/
def projectPairs (later : PathCondition) : Specification :=
  ⟨[⟨"root", "Root"⟩],
    [⟨⟨"p", "Project"⟩, [.path ⟨[⟨"root", "Root"⟩], "root", []⟩]⟩,
      ⟨⟨"q", "Project"⟩, [.path ⟨[⟨"root", "Root"⟩], "root", []⟩, .path later]⟩], []⟩

/-- A root with two projects. -/
def twoProjects : Store where
  facts := [⟨1, "Root", "r"⟩, ⟨2, "Project", "a"⟩, ⟨3, "Project", "b"⟩]
  edges := [⟨2, "root", 1⟩, ⟨3, "root", 1⟩]
  ids_nodup := by decide
  references_nodup := by decide
  edges_stored := by decide

def projectCatalog : Catalog := ⟨[("Root", 1), ("Project", 2)], [(2, [("root", 1)])]⟩

/-- The plan for pairs of projects, in which the labels have been bound. -/
def pairsJoined : Joined where
  plan :=
    { inputs := [⟨"root", 1, some 1, "r", some 1, some 2⟩]
      parameters := [.integer 1, .text "r", .integer 1, .integer 1]
      outputs := [⟨"p", "Project", 2⟩, ⟨"q", "Project", 3⟩]
      facts := [⟨1, "Root"⟩, ⟨2, "Project"⟩, ⟨3, "Project"⟩]
      edges := [⟨1, 1, 2, 3⟩, ⟨2, 1, 3, 4⟩]
      groups := [] }
  bindings := [("q", ⟨3, "Project"⟩), ("p", ⟨2, "Project"⟩), ("root", ⟨1, "Root"⟩)]

/-- The plan for pairs of projects that name the same root, which closes a cycle. -/
def siblingsJoined : Joined :=
  { pairsJoined with
    plan := { pairsJoined.plan with
      parameters := [.integer 1, .text "r", .integer 1, .integer 1, .integer 1, .integer 1]
      facts := [⟨1, "Root"⟩, ⟨2, "Project"⟩, ⟨3, "Project"⟩, ⟨4, "Root"⟩]
      edges := [⟨1, 1, 2, 3⟩, ⟨2, 1, 3, 4⟩, ⟨3, 4, 2, 5⟩, ⟨4, 4, 3, 6⟩] } }

theorem denotes_twoProjects {last : Joined}
    (hlast : last = pairsJoined ∨ last = siblingsJoined) :
    last.Denotes (twoProjects.graph.rows projectCatalog.schema twoProjects.hash)
      [⟨"p", "Project"⟩, ⟨"q", "Project"⟩]
      [⟨⟨2, "Project", "a"⟩, by decide⟩, ⟨⟨3, "Project", "b"⟩, by decide⟩] := by
  let root : twoProjects.Node := ⟨⟨1, "Root", "r"⟩, by decide⟩
  let a : twoProjects.Node := ⟨⟨2, "Project", "a"⟩, by decide⟩
  let b : twoProjects.Node := ⟨⟨3, "Project", "b"⟩, by decide⟩
  let σ : Nat → twoProjects.Node := fun s => if s = 2 then a else if s = 3 then b else root
  have hpinned : ∀ parameters, [Parameter.integer 1, .text "r"] <+: parameters →
      Plan.Input.Pinned (twoProjects.graph.rows projectCatalog.schema twoProjects.hash) parameters σ
        ⟨"root", 1, some 1, "r", some 1, some 2⟩ := by
    rintro _ ⟨more, rfl⟩
    exact ⟨by rintro _ ⟨⟩; exact ⟨1, rfl, rfl⟩, by rintro _ ⟨⟩; rfl⟩
  have ha : (twoProjects.graph.rows projectCatalog.schema twoProjects.hash).edge 1 a root :=
    ⟨"root", rfl, by decide⟩
  have hb : (twoProjects.graph.rows projectCatalog.schema twoProjects.hash).edge 1 b root :=
    ⟨"root", rfl, by decide⟩
  rcases hlast with rfl | rfl
  · refine ⟨σ, ⟨?_, Plan.Group.holds_edges.mpr ?_⟩, .cons ⟨_, rfl, rfl⟩ (.cons ⟨_, rfl, rfl⟩ .nil)⟩
    · simpa [pairsJoined] using hpinned _ ⟨_, rfl⟩
    · simp only [pairsJoined, List.forall_mem_cons]
      exact ⟨⟨1, rfl, ha⟩, ⟨1, rfl, hb⟩, List.forall_mem_nil _⟩
  · refine ⟨σ, ⟨?_, Plan.Group.holds_edges.mpr ?_⟩, .cons ⟨_, rfl, rfl⟩ (.cons ⟨_, rfl, rfl⟩ .nil)⟩
    · simpa [siblingsJoined, pairsJoined] using hpinned _ ⟨_, rfl⟩
    · simp only [siblingsJoined, List.forall_mem_cons]
      exact ⟨⟨1, rfl, ha⟩, ⟨1, rfl, hb⟩, ⟨1, rfl, ha⟩, ⟨1, rfl, hb⟩, List.forall_mem_nil _⟩

theorem plans_projectPairs :
    (projectPairs ⟨[], "p", []⟩).plans projectCatalog.schema [⟨"Root", "r"⟩] =
      .ok [pairsJoined.plan] ∧
    (projectPairs ⟨[⟨"root", "Root"⟩], "p", [⟨"root", "Root"⟩]⟩).plans projectCatalog.schema
      [⟨"Root", "r"⟩] = .ok [siblingsJoined.plan] := by
  constructor <;> cbv

theorem joinAll_projectPairs :
    Match.joinAll projectCatalog.schema "" []
      ((projectPairs ⟨[], "p", []⟩).initial projectCatalog.schema [⟨"Root", "r"⟩])
      (projectPairs ⟨[], "p", []⟩).body = .ok ⟨[], some pairsJoined⟩ ∧
    Match.joinAll projectCatalog.schema "" []
      ((projectPairs ⟨[⟨"root", "Root"⟩], "p", [⟨"root", "Root"⟩]⟩).initial projectCatalog.schema
        [⟨"Root", "r"⟩])
      (projectPairs ⟨[⟨"root", "Root"⟩], "p", [⟨"root", "Root"⟩]⟩).body =
        .ok ⟨[], some siblingsJoined⟩ := by
  constructor <;> cbv

theorem numbersRolesApart_projectCatalog : projectCatalog.schema.NumbersRolesApart :=
  Catalog.numbersRolesApart (by decide)

/-- The pair of the two projects satisfies all path conditions of pairs that name the same root. -/
theorem conditions_enforced_projectPairs : ∃ read,
    (projectPairs ⟨[⟨"root", "Root"⟩], "p", [⟨"root", "Root"⟩]⟩).Reads projectCatalog.schema
      [⟨"Root", "r"⟩] twoProjects
      [⟨⟨2, "Project", "a"⟩, by decide⟩, ⟨⟨3, "Project", "b"⟩, by decide⟩] read ∧
    ∀ m ∈ (projectPairs ⟨[⟨"root", "Root"⟩], "p", [⟨"root", "Root"⟩]⟩).body,
      ∀ condition ∈ m.paths, condition.Meets twoProjects.graph projectCatalog.schema.factTypeId
        read m.unknown := by
  obtain ⟨read, hreads, -, -, hall⟩ := conditions_enforced (by decide)
    numbersRolesApart_projectCatalog plans_projectPairs.2 joinAll_projectPairs.2 rfl
    (denotes_twoProjects (Or.inr rfl))
  refine ⟨read, hreads, hall.mpr ?_⟩
  -- no path condition is without roles
  simp [projectPairs, Match.paths, PathCondition.HasRoles]

/-- Not every path condition is satisfied: a second one that equates the two projects of a pair adds
no edge, and the pair of two different projects is denoted. -/
theorem not_forall_conditions_enforced : ¬ ∀ (spec : Specification) (schema : Schema)
    (start : List FactReference) (plans : List Plan) (branch : Branch) (last : Joined)
    (store : Store) (facts : List store.Node),
    ((spec.given ++ spec.unknowns).map Label.name).Nodup → schema.NumbersRolesApart →
    (∀ m ∈ spec.body, ∃ condition rest, m.conditions = .path condition :: rest) →
    spec.plans schema start = .ok plans →
    Match.joinAll schema "" [] (spec.initial schema start) spec.body = .ok branch →
    branch.last = some last →
    last.Denotes (store.graph.rows schema store.hash) spec.unknowns facts →
    ∃ read, spec.Reads schema start store facts read ∧
      ∀ m ∈ spec.body, ∀ condition ∈ m.paths,
        condition.Meets store.graph schema.factTypeId read m.unknown := by
  intro h
  obtain ⟨read, ⟨hunknowns, -⟩, hall⟩ := h (projectPairs ⟨[], "p", []⟩) projectCatalog.schema
    [⟨"Root", "r"⟩] _ _ _ twoProjects _ (by decide) numbersRolesApart_projectCatalog
    (by simp [projectPairs]) plans_projectPairs.1 joinAll_projectPairs.1 rfl
    (denotes_twoProjects (Or.inl rfl))
  have hmeets := hall _ (List.mem_cons_of_mem _ List.mem_cons_self) ⟨[], "p", []⟩ (by decide)
  rcases hunknowns with _ | ⟨hp, _ | ⟨hq, -⟩⟩
  have hsame := (meets_iff_of_not_hasRoles (by simp [PathCondition.HasRoles])
    (Option.isSome_of_mem hq)).mp hmeets
  exact absurd (hq.symm.trans (hsame.trans hp)) (by decide)

end Specification

end FactGraph
