import FactGraph.Proofs.Plan.Inputs
import FactGraph.Proofs.Plan.Linked
import FactGraph.Proofs.Plan.Order
import Mathlib.Data.Option.Basic

/-! # Joins at different branches

What a join appends does not depend on the branch to which it appends. Two plans are abreast at a
branch of each if they have the same inputs, parameters and facts, and equally many edges. Matches
that are joined at these branches append the same edges and groups, with the same numbers and slots,
or are dropped at both. So the query for which a negative condition fails and the group that must
not match are made of the same parts.

* `Match.joinAll_inStep`: matches that are joined at branches of two plans.
* `Match.joinAll_group`: matches that are joined at a branch, and in a new group of that branch. -/

namespace FactGraph

namespace Plan

/-! ### Plans abreast -/

/-- Two plans are abreast at a branch of each: they agree about everything that a join refers to. -/
structure Abreast (path path' : List Nat) (plan plan' : Plan) : Prop where
  inputs : plan.inputs = plan'.inputs
  parameters : plan.parameters = plan'.parameters
  facts : plan.facts = plan'.facts
  edgeCount : plan.edgeCount = plan'.edgeCount
  branch : plan.HasBranch path
  branch' : plan'.HasBranch path'

/-- The same part has been appended to a branch of each of two plans, and they are abreast. -/
structure InStep (path path' : List Nat) (old old' new new' : Plan) : Prop where
  grown : ∃ added, new.trunk = Group.grow added path old.trunk ∧
    new'.trunk = Group.grow added path' old'.trunk
  abreast : Abreast path path' new new'

variable {path path' : List Nat} {a a' b b' c c' plan plan' new : Plan}

theorem Abreast.refl (h : plan.HasBranch path) : Abreast path path plan plan :=
  ⟨rfl, rfl, rfl, rfl, h, h⟩

/-- Plans that grow by the same part stay abreast if their inputs, parameters and facts agree. -/
theorem InStep.of_grow {added : Group} (h : Abreast path path' a a')
    (ht : b.trunk = Group.grow added path a.trunk)
    (ht' : b'.trunk = Group.grow added path' a'.trunk)
    (hi : b.inputs = b'.inputs) (hp : b.parameters = b'.parameters) (hf : b.facts = b'.facts) :
    InStep path path' a a' b b' :=
  ⟨⟨added, ht, ht'⟩, hi, hp, hf,
    by rw [edgeCount_of_grow ht h.branch, edgeCount_of_grow ht' h.branch', h.edgeCount],
    hasBranch_of_grow ht h.branch, hasBranch_of_grow ht' h.branch'⟩

theorem InStep.of_trunk_eq (h : Abreast path path' a a') (ht : b.trunk = a.trunk)
    (ht' : b'.trunk = a'.trunk) (hi : b.inputs = b'.inputs) (hp : b.parameters = b'.parameters)
    (hf : b.facts = b'.facts) : InStep path path' a a' b b' :=
  .of_grow h (by rw [ht, Group.grow_empty]) (by rw [ht', Group.grow_empty]) hi hp hf

theorem InStep.refl (h : Abreast path path' a a') : InStep path path' a a' a a' :=
  .of_trunk_eq h rfl rfl h.inputs h.parameters h.facts

theorem InStep.trans (h : InStep path path' a a' b b') (h' : InStep path path' b b' c c') :
    InStep path path' a a' c c' := by
  obtain ⟨first, hb, hb'⟩ := h.grown
  obtain ⟨second, hc, hc'⟩ := h'.grown
  exact ⟨⟨first ++ second, by rw [hc, hb, Group.grow_grow], by rw [hc', hb', Group.grow_grow]⟩,
    h'.abreast⟩

/-! ### Operations in step -/

theorem Abreast.addEdge (h : Abreast path path' plan plan') {predecessor successor role : Nat}
    (he : plan.addEdge predecessor successor role path = .ok new) :
    ∃ new', plan'.addEdge predecessor successor role path' = .ok new' ∧
      InStep path path' plan plan' new new' := by
  obtain ⟨new', he', -⟩ := exists_addEdge h.branch' predecessor successor role
  obtain ⟨ht, hi, hp, hf⟩ := addEdge_eq_ok he
  obtain ⟨ht', hi', hp', hf'⟩ := addEdge_eq_ok he'
  rw [← h.edgeCount] at ht'
  exact ⟨new', he', .of_grow h ht ht' (by rw [hi, hi', h.inputs])
    (by rw [hp, hp', h.parameters]) (by rw [hf, hf', h.facts])⟩

/-- A role's parameter and the slot to which it leads are the same in both plans. -/
theorem Abreast.nextSlot {α : Type} (h : Abreast path path' plan plan') (parameter : Parameter)
    (type : String) (unknown : Option Fact) (rest : List α) :
    (plan.addParameter parameter).2 = (plan'.addParameter parameter).2 ∧
      (FactGraph.nextSlot (plan.addParameter parameter).1 type unknown rest).2 =
        (FactGraph.nextSlot (plan'.addParameter parameter).1 type unknown rest).2 ∧
      InStep path path' plan plan'
        (FactGraph.nextSlot (plan.addParameter parameter).1 type unknown rest).1
        (FactGraph.nextSlot (plan'.addParameter parameter).1 type unknown rest).1 := by
  have hposition : plan.parameters.length + 1 = plan'.parameters.length + 1 := by
    rw [h.parameters]
  have hparameters : plan.parameters ++ [parameter] = plan'.parameters ++ [parameter] := by
    rw [h.parameters]
  have hslot : plan.facts.length + 1 = plan'.facts.length + 1 := by rw [h.facts]
  have hfacts : plan.facts ++ [⟨plan.facts.length + 1, type⟩] =
      plan'.facts ++ [⟨plan'.facts.length + 1, type⟩] := by rw [h.facts]
  rcases unknown with _ | fact
  · exact ⟨hposition, hslot, .of_trunk_eq h rfl rfl h.inputs hparameters hfacts⟩
  rcases rest with _ | ⟨first, others⟩
  · exact ⟨hposition, rfl, .of_trunk_eq h rfl rfl h.inputs hparameters h.facts⟩
  · exact ⟨hposition, hslot, .of_trunk_eq h rfl rfl h.inputs hparameters hfacts⟩

/-- Nothing but the inputs and the parameters counts for the use of an input, and nothing else
changes. -/
theorem useInput_eq_map (hi : plan.inputs = plan'.inputs) (hp : plan.parameters = plan'.parameters)
    (label : String) : plan'.useInput label = (plan.useInput label).map fun used =>
      { plan' with inputs := used.inputs, parameters := used.parameters } := by
  have hadd : plan'.addInputParameters label = (plan.addInputParameters label).map fun used =>
      { plan' with inputs := used.inputs, parameters := used.parameters } := by
    unfold addInputParameters
    simp only [hi, Option.bind_eq_bind]
    generalize List.findIdx? _ plan'.inputs = found
    rcases found with _ | position
    · rfl
    simp only [Option.bind_some]
    rcases plan'.inputs[position]? with _ | used
    · rfl
    simp only [Option.bind_some]
    rcases used.typeId with _ | id
    · rfl
    · simp [addParameter, hi, hp]
  unfold useInput input?
  rw [hi]
  generalize List.find? _ plan'.inputs = found
  rcases found with _ | input
  · simp [hi, hp]
  · simp only
    split_ifs
    · exact hadd
    · simp [hi, hp]

theorem useInput_keeps {label : String} {used : Plan} (h : plan.useInput label = some used) :
    used.trunk = plan.trunk ∧ used.facts = plan.facts ∧ used.outputs = plan.outputs := by
  unfold useInput at h
  rcases hi : plan.input? label with _ | input <;> simp only [hi] at h
  · cases h
    exact ⟨rfl, rfl, rfl⟩
  · split_ifs at h
    · obtain ⟨position, input, id, -, -, -, rfl⟩ := exists_of_addInputParameters h
      exact ⟨rfl, rfl, rfl⟩
    · cases h
      exact ⟨rfl, rfl, rfl⟩

theorem Abreast.useInput (h : Abreast path path' plan plan') (label : String) :
    Option.Rel (InStep path path' plan plan') (plan.useInput label) (plan'.useInput label) := by
  rw [useInput_eq_map h.inputs h.parameters]
  rcases hu : plan.useInput label with _ | used
  · exact .none
  · obtain ⟨ht, hf, -⟩ := useInput_keeps hu
    exact .some (.of_trunk_eq h ht rfl rfl rfl (hf.trans h.facts))

theorem InStep.of_addGroup {inner inner' : List Nat} {opened opened' : Plan}
    (h : Abreast path path' plan plan') (hg : plan.addGroup path = .ok (opened, inner))
    (hg' : plan'.addGroup path' = .ok (opened', inner'))
    (hs : InStep inner inner' opened opened' b b') : InStep path path' plan plan' b b' := by
  obtain ⟨added, ht, ht'⟩ := hs.grown
  rw [(addGroup_eq_ok hg).1] at ht
  rw [(addGroup_eq_ok hg').1] at ht'
  exact .of_grow h ht ht' hs.abreast.inputs hs.abreast.parameters hs.abreast.facts

theorem Abreast.addGroup {opened : Plan} {inner : List Nat} (h : Abreast path path' plan plan')
    (hg : plan.addGroup path = .ok (opened, inner)) :
    ∃ opened' inner', plan'.addGroup path' = .ok (opened', inner') ∧
      Abreast inner inner' opened opened' := by
  obtain ⟨opened', inner', hg', -⟩ := exists_addGroup h.branch'
  obtain ⟨-, hi, hp, hf⟩ := addGroup_eq_ok hg
  obtain ⟨-, hi', hp', hf'⟩ := addGroup_eq_ok hg'
  obtain ⟨hb, he⟩ := edgeCount_of_addGroup hg h.branch
  obtain ⟨hb', he'⟩ := edgeCount_of_addGroup hg' h.branch'
  exact ⟨opened', inner', hg', by rw [hi, hi', h.inputs], by rw [hp, hp', h.parameters],
    by rw [hf, hf', h.facts], by rw [he, he', h.edgeCount], hb, hb'⟩

theorem exists_of_addGroup {opened : Plan} {inner : List Nat}
    (h : plan.addGroup path = .ok (opened, inner)) :
    ∃ branch, Group.Leads path plan.trunk branch ∧ inner = path ++ [branch.groups.length] := by
  unfold addGroup at h
  split_ifs at h with hp
  · obtain rfl := List.isEmpty_iff.mp hp
    cases h
    exact ⟨_, rfl, rfl⟩
  · obtain ⟨outer, ho, h⟩ := Except.bind_eq_ok_iff.mp h
    obtain ⟨groups, -, h⟩ := Except.bind_eq_ok_iff.mp h
    cases h
    exact ⟨outer, Group.leads_of_at? ho plan.edges, rfl⟩

theorem Abreast.of_addGroup {opened : Plan} {inner : List Nat} (hb : plan.HasBranch path)
    (hg : plan.addGroup path = .ok (opened, inner)) : Abreast path inner plan opened := by
  obtain ⟨-, hi, hp, hf⟩ := addGroup_eq_ok hg
  obtain ⟨hinner, he⟩ := edgeCount_of_addGroup hg hb
  exact ⟨hi.symm, hp.symm, hf.symm, he.symm, hb, hinner⟩

end Plan

/-! ### Paths in step -/

section

variable {schema : Schema} {path path' : List Nat}

theorem ascend_inStep {unknown : Option Plan.Fact} : ∀ {roles : List Role} {plan plan' : Plan}
    {slot : Nat} {type : String} {up : Option (Plan × Nat)}, plan.Abreast path path' plan' →
    ascend schema path unknown plan slot type roles = .ok up →
    ∃ up', ascend schema path' unknown plan' slot type roles = .ok up' ∧
      Option.Rel (fun r r' => Plan.InStep path path' plan plan' r.1 r'.1 ∧ r.2 = r'.2) up up'
  | [], plan, plan', slot, type, _, h, hup => by
    cases hup
    exact ⟨_, rfl, .some ⟨.refl h, rfl⟩⟩
  | role :: rest, plan, plan', slot, type, up, h, hup => by
    rw [ascend] at hup ⊢
    rcases hr : schema.roleOf type role.name with _ | id <;> simp only [hr] at hup ⊢
    · cases hup
      exact ⟨_, rfl, .none⟩
    · obtain ⟨hposition, hslot, hnext⟩ := h.nextSlot (.integer id) role.target unknown rest
      obtain ⟨edged, he, hup⟩ := Except.bind_eq_ok_iff.mp hup
      obtain ⟨edged', he', hedged⟩ := hnext.abreast.addEdge he
      obtain ⟨up', hup', hrel⟩ := ascend_inStep hedged.abreast hup
      rw [hslot, hposition] at he'
      rw [hslot] at hup'
      refine ⟨up', Except.bind_eq_ok_iff.mpr ⟨edged', he', hup'⟩, ?_⟩
      cases hrel with
      | none => exact .none
      | some hlast => exact .some ⟨hnext.trans (hedged.trans hlast.1), hlast.2⟩

theorem descend_inStep {unknown : Option Plan.Fact} : ∀ {ids : List (Int × String)}
    {plan plan' new : Plan} {slot last : Nat}, plan.Abreast path path' plan' →
    descend path unknown plan slot ids = .ok (new, last) →
    ∃ new', descend path' unknown plan' slot ids = .ok (new', last) ∧
      Plan.InStep path path' plan plan' new new'
  | [], plan, plan', new, slot, last, h, hdown => by
    cases hdown
    exact ⟨_, rfl, .refl h⟩
  | (id, type) :: rest, plan, plan', new, slot, last, h, hdown => by
    rw [descend] at hdown ⊢
    simp only at hdown ⊢
    obtain ⟨hposition, hslot, hnext⟩ := h.nextSlot (.integer id) type unknown rest
    obtain ⟨edged, he, hdown⟩ := Except.bind_eq_ok_iff.mp hdown
    obtain ⟨edged', he', hedged⟩ := hnext.abreast.addEdge he
    obtain ⟨new', hdown', hlast⟩ := descend_inStep hedged.abreast hdown
    rw [hslot, hposition] at he'
    rw [hslot] at hdown'
    exact ⟨new', Except.bind_eq_ok_iff.mpr ⟨edged', he', hdown'⟩,
      hnext.trans (hedged.trans hlast)⟩

end

/-! ### Branches in step -/

/-- Two compilations go on in step: they complete equally many plans, which have grown in step, and
go on to plans that have, with the same labels bound, or are both dropped. -/
structure Branch.InStep (path path' : List Nat) (old old' : Plan) (branch branch' : Branch) :
    Prop where
  completed : List.Forall₂ (Plan.InStep path path' old old') branch.completed branch'.completed
  last : Option.Rel (fun new new' => Plan.InStep path path' old old' new.plan new'.plan ∧
    new.bindings = new'.bindings) branch.last branch'.last

namespace Branch

variable {path path' inner inner' : List Nat} {old old' opened opened' : Plan}
  {branch branch' : Branch}

theorem rel_imp {α β : Type} {R S : α → β → Prop} (hRS : ∀ {a b}, R a b → S a b) {a : Option α}
    {b : Option β} (h : Option.Rel R a b) : Option.Rel S a b := by
  cases h with
  | none => exact .none
  | some hr => exact .some (hRS hr)

theorem InStep.continued {bindings : Bindings} (h : old.Abreast path path' old') :
    InStep path path' old old' (.continued ⟨old, bindings⟩) (.continued ⟨old', bindings⟩) :=
  ⟨.nil, .some ⟨.refl h, rfl⟩⟩

theorem InStep.behind {a a' : Plan} (ha : Plan.InStep path path' old old' a a')
    (h : InStep path path' a a' branch branch') : InStep path path' old old' branch branch' :=
  ⟨h.completed.imp fun _ _ => ha.trans,
    rel_imp (fun hlast => ⟨ha.trans hlast.1, hlast.2⟩) h.last⟩

theorem InStep.andThen {next : Joined → Except PlanError Branch}
    (next' : Joined → Except PlanError Branch) {whole : Branch}
    (h : InStep path path' old old' branch branch')
    (hn : ∀ {plan plan' : Plan} {bindings : Bindings} {rest : Branch},
      plan.Abreast path path' plan' → next ⟨plan, bindings⟩ = .ok rest →
      ∃ rest', next' ⟨plan', bindings⟩ = .ok rest' ∧ InStep path path' plan plan' rest rest')
    (hw : branch.andThen next = .ok whole) :
    ∃ whole', branch'.andThen next' = .ok whole' ∧ InStep path path' old old' whole whole' := by
  obtain ⟨completed, last⟩ := branch
  obtain ⟨completed', last'⟩ := branch'
  obtain ⟨hcompleted, hlast⟩ := h
  cases hlast with
  | none =>
    cases hw
    exact ⟨_, rfl, hcompleted, .none⟩
  | @some new new' hnew =>
    obtain ⟨plan, bindings⟩ := new
    obtain ⟨plan', bindings'⟩ := new'
    obtain ⟨hstep, rfl⟩ : Plan.InStep path path' old old' plan plan' ∧ bindings = bindings' := hnew
    obtain ⟨rest, hr, hw⟩ := Except.bind_eq_ok_iff.mp hw
    cases hw
    obtain ⟨rest', hr', hrest⟩ := hn hstep.abreast hr
    have hall := hrest.behind hstep
    exact ⟨_, Except.bind_eq_ok_iff.mpr ⟨rest', hr', rfl⟩,
      List.rel_append hcompleted hall.completed, hall.last⟩

theorem InStep.hasBranch {next : Joined} (h : InStep path path' old old' branch branch')
    (hl : branch.last = some next) : next.plan.HasBranch path := by
  have hlast := h.last
  rw [hl] at hlast
  generalize branch'.last = last' at hlast
  cases hlast with
  | some hnew => exact hnew.1.abreast.branch

theorem InStep.plans (h : InStep path path' old old' branch branch') :
    List.Forall₂ (Plan.InStep path path' old old')
      (branch.completed ++ (branch.last.map Joined.plan).toList)
      (branch'.completed ++ (branch'.last.map Joined.plan).toList) := by
  refine List.rel_append h.completed ?_
  have hlast := h.last
  generalize branch.last = last, branch'.last = last' at hlast
  cases hlast with
  | none => exact .nil
  | some hnew => exact .cons hnew.1 .nil

theorem InStep.forget (h : InStep path path' old old' branch branch') (bindings : Bindings) :
    InStep path path' old old'
      ⟨branch.completed, branch.last.map fun last => ⟨last.plan, bindings⟩⟩
      ⟨branch'.completed, branch'.last.map fun last => ⟨last.plan, bindings⟩⟩ := by
  refine ⟨h.completed, ?_⟩
  have hlast := h.last
  generalize branch.last = last, branch'.last = last' at hlast
  cases hlast with
  | none => exact .none
  | some hnew => exact .some ⟨hnew.1, rfl⟩

theorem InStep.of_addGroup (h : old.Abreast path path' old')
    (hg : old.addGroup path = .ok (opened, inner))
    (hg' : old'.addGroup path' = .ok (opened', inner'))
    (hs : InStep inner inner' opened opened' branch branch') :
    InStep path path' old old' branch branch' :=
  ⟨hs.completed.imp fun _ _ => .of_addGroup h hg hg',
    rel_imp (fun hlast => ⟨.of_addGroup h hg hg' hlast.1, hlast.2⟩) hs.last⟩

end Branch

/-! ### Matches in step -/

section

variable {schema : Schema} {stem : String} {path path' : List Nat}

theorem Plan.InStep.output {old old' plan plan' : Plan}
    (h : Plan.InStep path path' old old' plan plan') (label type : String) (slot : Nat) :
    Plan.InStep path path' old old'
      (if path.isEmpty then plan.addOutput label type slot else plan)
      (if path'.isEmpty then plan'.addOutput label type slot else plan') := by
  have hplan (b : Bool) (plan : Plan) : (if b then plan.addOutput label type slot else plan) =
      { plan with outputs := (if b then plan.addOutput label type slot else plan).outputs } := by
    cases b <;> rfl
  rw [hplan, hplan path'.isEmpty]
  exact h.trans (.of_trunk_eq h.abreast rfl rfl h.abreast.inputs h.abreast.parameters
    h.abreast.facts)

/-- **A path condition is joined in step, or dropped at both branches.** -/
theorem PathCondition.join_inStep {plan plan' : Plan} {unknown : Label}
    {condition : PathCondition} {bindings : Bindings} {branch : Branch}
    (h : plan.Abreast path path' plan')
    (hj : condition.join schema stem path unknown ⟨plan, bindings⟩ = .ok branch) :
    ∃ branch', condition.join schema stem path' unknown ⟨plan', bindings⟩ = .ok branch' ∧
      Branch.InStep path path' plan plan' branch branch' := by
  have hdropped : Branch.InStep path path' plan plan' .dropped .dropped := ⟨.nil, .none⟩
  unfold PathCondition.join at hj ⊢
  simp only at hj ⊢
  have huse := h.useInput condition.labelRight
  generalize plan.useInput condition.labelRight = used,
    plan'.useInput condition.labelRight = used' at huse hj
  cases huse with
  | none =>
    cases hj
    exact ⟨_, rfl, hdropped⟩
  | some hused =>
    simp only at hj ⊢
    rcases hr : bindings.lookup condition.labelRight with _ | right <;> simp only [hr] at hj ⊢
    · cases hj
    obtain ⟨up, hup, hj⟩ := Except.bind_eq_ok_iff.mp hj
    obtain ⟨up', hup', hrel⟩ := ascend_inStep hused.abreast hup
    rw [hup']
    cases hrel with
    | none =>
      cases hj
      exact ⟨_, rfl, hdropped⟩
    | @some up up' hmiddle =>
      obtain ⟨middle, slot⟩ := up
      obtain ⟨middle', slot'⟩ := up'
      obtain ⟨hmiddle, rfl⟩ := hmiddle
      simp only at hj hmiddle ⊢
      rcases hl : resolveRoles schema unknown.type condition.rolesLeft with _ | roles <;>
        simp only [hl] at hj ⊢
      · cases hj
        exact ⟨_, rfl, hdropped⟩
      obtain ⟨⟨final, last⟩, hdown, hj⟩ := Except.bind_eq_ok_iff.mp hj
      obtain ⟨final', hdown', hfinal⟩ := descend_inStep hmiddle.abreast hdown
      have hwhole := hused.trans (hmiddle.trans hfinal)
      rcases hb : bindings.lookup unknown.name with _ | fact <;> rw [hb] at hdown' hj
      all_goals
        cases hj
        refine ⟨_, Except.bind_eq_ok_iff.mpr
          ⟨_, rfl, Except.bind_eq_ok_iff.mpr ⟨_, hdown', rfl⟩⟩, .nil, .some ⟨?_, rfl⟩⟩
      · exact hwhole.output _ _ _
      · exact hwhole

mutual

theorem Condition.join_inStep : ∀ (condition : Condition) {path path' : List Nat}
    {plan plan' : Plan} {unknown : Label} {bindings : Bindings} {branch : Branch},
    plan.Abreast path path' plan' →
    condition.join schema stem path unknown ⟨plan, bindings⟩ = .ok branch →
    ∃ branch', condition.join schema stem path' unknown ⟨plan', bindings⟩ = .ok branch' ∧
      Branch.InStep path path' plan plan' branch branch'
  | .path condition, _, _, _, _, _, _, _, h, hj => by
    rw [Condition.join] at hj ⊢
    exact condition.join_inStep h hj
  | .existential true block, path, path', plan, plan', unknown, bindings, branch, h, hj => by
    rw [Condition.join] at hj ⊢
    obtain ⟨inner, hi, hj⟩ := Except.bind_eq_ok_iff.mp hj
    obtain ⟨inner', hi', hstep⟩ := Match.joinAll_inStep block h hi
    cases hj
    exact ⟨_, Except.bind_eq_ok_iff.mpr ⟨inner', hi', rfl⟩, hstep.forget bindings⟩
  | .existential false block, path, path', plan, plan', unknown, bindings, branch, h, hj => by
    rw [Condition.join] at hj ⊢
    obtain ⟨failing, hfail, hj⟩ := Except.bind_eq_ok_iff.mp hj
    obtain ⟨⟨opened, inner⟩, hg, hj⟩ := Except.bind_eq_ok_iff.mp hj
    obtain ⟨absent, ha, hj⟩ := Except.bind_eq_ok_iff.mp hj
    obtain ⟨failing', hfail', hfailing⟩ := Match.joinAll_inStep block h hfail
    -- the groups fork off the same plans as the queries for which the condition fails
    obtain ⟨opened', inner', hg', hopened⟩ := h.addGroup hg
    obtain ⟨absent', ha', habsent⟩ := Match.joinAll_inStep block hopened ha
    replace habsent := Branch.InStep.of_addGroup h hg hg' habsent
    obtain ⟨completed, last⟩ := absent
    obtain ⟨completed', last'⟩ := absent'
    obtain ⟨hcompleted, hlast⟩ := habsent
    cases hlast with
    | none =>
      cases hj
      exact ⟨_, Except.bind_eq_ok_iff.mpr ⟨failing', hfail', Except.bind_eq_ok_iff.mpr
        ⟨⟨opened', inner'⟩, hg', Except.bind_eq_ok_iff.mpr ⟨_, ha', rfl⟩⟩⟩, .continued h⟩
    | some hlast =>
      cases hj
      exact ⟨_, Except.bind_eq_ok_iff.mpr ⟨failing', hfail', Except.bind_eq_ok_iff.mpr
        ⟨⟨opened', inner'⟩, hg', Except.bind_eq_ok_iff.mpr ⟨_, ha', rfl⟩⟩⟩,
        List.rel_append hfailing.plans hcompleted, .some ⟨hlast.1, rfl⟩⟩

/-- **Matches are joined in step**: at branches of plans that are abreast there, the same edges and
groups are appended, with the same numbers and slots. -/
theorem Match.joinAll_inStep : ∀ (block : List Match) {path path' : List Nat} {plan plan' : Plan}
    {bindings : Bindings} {branch : Branch}, plan.Abreast path path' plan' →
    Match.joinAll schema stem path ⟨plan, bindings⟩ block = .ok branch →
    ∃ branch', Match.joinAll schema stem path' ⟨plan', bindings⟩ block = .ok branch' ∧
      Branch.InStep path path' plan plan' branch branch'
  | [], _, _, _, _, _, _, h, hj => by
    cases hj
    exact ⟨_, rfl, .continued h⟩
  | ⟨unknown, conditions⟩ :: rest, path, path', plan, plan', bindings, branch, h, hj => by
    rw [Match.joinAll, Match.join] at hj ⊢
    obtain ⟨first, hf, hj⟩ := Except.bind_eq_ok_iff.mp hj
    obtain ⟨first', hf', hfirst⟩ := Condition.joinAll_inStep conditions h hf
    obtain ⟨branch', hb, hstep⟩ := hfirst.andThen
      (fun next => Match.joinAll schema stem path' next rest)
      (fun h hr => Match.joinAll_inStep rest h hr) hj
    exact ⟨branch', Except.bind_eq_ok_iff.mpr ⟨first', hf', hb⟩, hstep⟩

theorem Condition.joinAll_inStep : ∀ (conditions : List Condition) {path path' : List Nat}
    {plan plan' : Plan} {unknown : Label} {bindings : Bindings} {branch : Branch},
    plan.Abreast path path' plan' →
    Condition.joinAll schema stem path unknown ⟨plan, bindings⟩ conditions = .ok branch →
    ∃ branch', Condition.joinAll schema stem path' unknown ⟨plan', bindings⟩ conditions =
        .ok branch' ∧
      Branch.InStep path path' plan plan' branch branch'
  | [], _, _, _, _, _, _, _, h, hj => by
    cases hj
    exact ⟨_, rfl, .continued h⟩
  | condition :: rest, path, path', plan, plan', unknown, bindings, branch, h, hj => by
    rw [Condition.joinAll] at hj ⊢
    obtain ⟨first, hf, hj⟩ := Except.bind_eq_ok_iff.mp hj
    obtain ⟨first', hf', hfirst⟩ := condition.join_inStep h hf
    obtain ⟨branch', hb, hstep⟩ := hfirst.andThen
      (fun next => Condition.joinAll schema stem path' unknown next rest)
      (fun h hr => Condition.joinAll_inStep rest h hr) hj
    exact ⟨branch', Except.bind_eq_ok_iff.mpr ⟨first', hf', hb⟩, hstep⟩

end

/-! ### Matches and the group of matches -/

/-- A plan to whose branch a part has been appended, and another one whose branch has got a group
with the same part instead. -/
structure Plan.Encloses (path inner : List Nat) (old joined enclosed : Plan) : Prop where
  inputs : joined.inputs = enclosed.inputs
  parameters : joined.parameters = enclosed.parameters
  facts : joined.facts = enclosed.facts
  content : ∃ content : Plan.Group, joined.trunk = Plan.Group.grow content path old.trunk ∧
    enclosed.trunk = Plan.Group.grow ⟨[], [content]⟩ path old.trunk ∧
    Plan.Group.Leads inner enclosed.trunk content

theorem Plan.InStep.encloses {plan opened joined enclosed : Plan} {inner : List Nat}
    (hg : plan.addGroup path = .ok (opened, inner))
    (h : Plan.InStep path inner plan opened joined enclosed) :
    Plan.Encloses path inner plan joined enclosed := by
  obtain ⟨content, ht, ht'⟩ := h.grown
  obtain ⟨branch, hl, rfl⟩ := Plan.exists_of_addGroup hg
  rw [(Plan.addGroup_eq_ok hg).1] at ht'
  refine ⟨h.abreast.inputs, h.abreast.parameters, h.abreast.facts, content, ht, ht', ?_⟩
  rw [ht']
  exact Plan.Group.leads_new_group hl

/-- **The query for which a negative condition fails and the group that must not match agree.** Both
of them complete equally many plans, and both end with a plan or none does. Whatever the first has
joined onto the branch, with its numbers and slots, is the content of the group of the second. -/
theorem Match.joinAll_group {block : List Match} {plan opened : Plan} {inner : List Nat}
    {bindings : Bindings} {failing absent : Branch}
    (hg : plan.addGroup path = .ok (opened, inner))
    (hf : Match.joinAll schema stem path ⟨plan, bindings⟩ block = .ok failing)
    (ha : Match.joinAll schema stem inner ⟨opened, bindings⟩ block = .ok absent) :
    failing.completed.length = absent.completed.length ∧
      Option.Rel (fun joined enclosed => Plan.Encloses path inner plan joined.plan enclosed.plan)
        failing.last absent.last := by
  obtain ⟨branch, hl, -⟩ := Plan.exists_of_addGroup hg
  obtain ⟨absent', ha', hstep⟩ := Match.joinAll_inStep block (.of_addGroup ⟨branch, hl⟩ hg) hf
  obtain rfl := Except.ok.inj (ha.symm.trans ha')
  exact ⟨hstep.completed.length_eq, Branch.rel_imp (fun h => h.1.encloses hg) hstep.last⟩

/-- Projects that are not deleted are joined, and excluded, in the same way. -/
theorem Match.joinAll_group_withoutDeletion :
    let spec := Specification.projectsWhere false [Specification.deletion]
    let start := spec.initial Schema.single [⟨"Root", "r"⟩]
    ∃ opened failing absent, start.plan.addGroup [] = .ok (opened, [0]) ∧
      Match.joinAll Schema.single "" [] start spec.body = .ok failing ∧
      Match.joinAll Schema.single "" [0] ⟨opened, start.bindings⟩ spec.body = .ok absent ∧
      failing.last.isSome = true ∧ failing.completed.length = absent.completed.length ∧
      Option.Rel (fun joined enclosed =>
        Plan.Encloses [] [0] start.plan joined.plan enclosed.plan) failing.last absent.last := by
  intro spec start
  have hfailing : (do
      let failing ← Match.joinAll Schema.single "" [] start spec.body
      return failing.last.isSome) = .ok true := by decide +kernel
  have hgroup : (do
      let opened ← start.plan.addGroup []
      let _ ← Match.joinAll Schema.single "" opened.2 ⟨opened.1, start.bindings⟩ spec.body
      return opened.2) = .ok [0] := by decide +kernel
  obtain ⟨failing, hf, hsome⟩ := Except.bind_eq_ok_iff.mp hfailing
  obtain ⟨⟨opened, inner⟩, hg, hgroup⟩ := Except.bind_eq_ok_iff.mp hgroup
  obtain ⟨absent, ha, hinner⟩ := Except.bind_eq_ok_iff.mp hgroup
  obtain rfl : inner = [0] := Except.ok.inj hinner
  exact ⟨opened, failing, absent, hg, hf, ha, Except.ok.inj hsome, Match.joinAll_group hg hf ha⟩

end

end FactGraph
