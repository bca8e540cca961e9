import FactGraph.Proofs.Plan.Contexts
import FactGraph.Proofs.Plan.Runs
import FactGraph.Proofs.Specification.Intermediates

/-! # Plans that select one more slot

What is selected matters to no operation on a plan, and a label matters only to matches that mention
it. So if one compilation has bound a label of its own, and perhaps selected its slot, but is the
same as another one otherwise, both of them go on in the same way.

* `PathCondition.agree_join_adds`, `Match.agree_joinAll_adds`: what they join, one constructor after
  the other. -/

namespace FactGraph

/-- The plan with other outputs. -/
def Plan.selecting (outputs : List Plan.Output) (plan : Plan) : Plan :=
  { plan with outputs := outputs }

/-- A plan selects one more slot than another one, under a label, and is the same otherwise. Without
a label both plans are the same. -/
structure Plan.Adds (label : Option Label) (old new : Plan) : Prop where
  same : new = old.selecting new.outputs
  outputs : ∃ before after slot, old.outputs = before ++ after ∧
    new.outputs = before ++ (label.map fun l => ⟨l.name, l.type, slot⟩).toList ++ after

/-- A compilation has bound one more label, perhaps, than another one. Its plan selects one more
slot, or is the same. -/
structure Joined.Adds (name : String) (label : Option Label) (old new : Joined) : Prop where
  plan : Plan.Adds label old.plan new.plan
  bindings : ∀ other, other ≠ name → new.bindings.lookup other = old.bindings.lookup other

/-- Two branches are both dropped, or one of them ends with one more label. -/
def Branch.Adds (name : String) (label : Option Label) (old new : Branch) : Prop :=
  Option.Rel (Joined.Adds name label) old.last new.last

/-- A plan selects one more slot than another one, and the same is reported besides. -/
def Plan.AddsWith {α : Type} (label : Option Label) (old new : Plan × α) : Prop :=
  Plan.Adds label old.1 new.1 ∧ new.2 = old.2

/-! ### Operations on plans -/

namespace Plan

variable {label : Option Label} {plan plan' : Plan}

section

variable (plan : Plan) (outputs : List Output)

theorem addEdge_selecting (predecessor successor role : Nat) (path : List Nat) :
    (plan.addEdge predecessor successor role path).map (selecting outputs) =
      (plan.selecting outputs).addEdge predecessor successor role path := by
  unfold addEdge
  split_ifs
  · rfl
  · exact Except.map_bind (Group.modify _ plan.groups path) _ (selecting outputs)

theorem addGroup_selecting (path : List Nat) :
    (plan.addGroup path).map (Prod.map (selecting outputs) id) =
      (plan.selecting outputs).addGroup path := by
  unfold addGroup
  split_ifs
  · rfl
  · refine (Except.map_bind (Group.at? plan.groups path) _ _).trans
      (congrArg _ (funext fun outer => ?_))
    exact Except.map_bind (Group.modify _ plan.groups path) _ _

theorem addInputParameters_selecting (name : String) :
    (plan.addInputParameters name).map (selecting outputs) =
      (plan.selecting outputs).addInputParameters name := by
  simp only [addInputParameters, Option.bind_eq_bind, Option.map_bind, Function.comp_def]
  rfl

theorem useInput_selecting (name : String) :
    (plan.useInput name).map (selecting outputs) = (plan.selecting outputs).useInput name := by
  have hinput : (plan.selecting outputs).input? name = plan.input? name := rfl
  rw [useInput, useInput, hinput]
  rcases plan.input? name with _ | input
  · rfl
  · dsimp only
    split_ifs
    · exact addInputParameters_selecting plan outputs name
    · rfl

end

namespace Adds

theorem refl (plan : Plan) : Adds none plan plan :=
  ⟨rfl, plan.outputs, [], 0, by simp, by simp⟩

theorem keep (h : Adds label plan plan') {old : Plan} (ho : old.outputs = plan.outputs) :
    Adds label old (old.selecting plan'.outputs) :=
  ⟨rfl, by rw [ho]; exact h.outputs⟩

theorem addOutput (h : Adds label plan plan') (name type : String) (slot : Nat) :
    Adds label (plan.addOutput name type slot) (plan'.addOutput name type slot) where
  same := by
    rw [h.same]
    rfl
  outputs := by
    obtain ⟨before, after, slot', ho, ho'⟩ := h.outputs
    exact ⟨before, after ++ [⟨name, type, slot⟩], slot', by simp [Plan.addOutput, ho],
      by simp [Plan.addOutput, ho']⟩

theorem useInput (h : Adds label plan plan') (name : String) :
    Option.Rel (Adds label) (plan.useInput name) (plan'.useInput name) := by
  rw [h.same, ← useInput_selecting]
  rcases hu : plan.useInput name with _ | used
  · exact .none
  · exact .some (h.keep (useInput_keeps hu).2.2)

theorem addEdge (h : Adds label plan plan') (predecessor successor role : Nat) (path : List Nat) :
    Except.Agree (Adds label) (plan.addEdge predecessor successor role path)
      (plan'.addEdge predecessor successor role path) := by
  rw [h.same, ← addEdge_selecting]
  rcases he : plan.addEdge predecessor successor role path with e | edged
  · trivial
  · exact h.keep (outputs_of_addEdge he)

theorem addGroup (h : Adds label plan plan') (path : List Nat) :
    Except.Agree (AddsWith label) (plan.addGroup path) (plan'.addGroup path) := by
  rw [h.same, ← addGroup_selecting]
  rcases hg : plan.addGroup path with e | ⟨opened, inner⟩
  · trivial
  · exact ⟨h.keep (outputs_of_addGroup hg).2, rfl⟩

theorem addParameter (h : Adds label plan plan') (parameter : Parameter) :
    AddsWith label (plan.addParameter parameter) (plan'.addParameter parameter) := by
  rw [h.same]
  exact ⟨h.keep rfl, rfl⟩

theorem nextSlot {α : Type} (h : Adds label plan plan') (type : String) (unknown : Option Fact)
    (rest : List α) : AddsWith label (FactGraph.nextSlot plan type unknown rest)
      (FactGraph.nextSlot plan' type unknown rest) := by
  rw [h.same]
  unfold FactGraph.nextSlot
  split <;> exact ⟨h.keep rfl, rfl⟩

end Adds

end Plan

/-! ### Paths -/

section

variable {schema : Schema} {path : List Nat} {label : Option Label} {unknown : Option Plan.Fact}

theorem agree_ascend_adds : ∀ {roles : List Role} {plan plan' : Plan} {slot : Nat} {type : String},
    Plan.Adds label plan plan' → Except.Agree (Option.Rel (Plan.AddsWith label))
      (ascend schema path unknown plan slot type roles)
      (ascend schema path unknown plan' slot type roles)
  | [], _, _, _, _, h => .some ⟨h, rfl⟩
  | role :: rest, plan, plan', slot, type, h => by
    rw [ascend, ascend]
    rcases schema.roleOf type role.name with _ | id
    · exact .none
    · obtain ⟨hparameter, hposition⟩ := h.addParameter (.integer id)
      obtain ⟨hnext, hslot⟩ := hparameter.nextSlot role.target unknown rest
      simp only [hposition, hslot]
      exact (hnext.addEdge _ _ _ path).bind fun _ _ he => agree_ascend_adds he

theorem agree_descend_adds : ∀ {ids : List (Int × String)} {plan plan' : Plan} {slot : Nat},
    Plan.Adds label plan plan' → Except.Agree (Plan.AddsWith label)
      (descend path unknown plan slot ids) (descend path unknown plan' slot ids)
  | [], _, _, _, h => ⟨h, rfl⟩
  | (id, type) :: rest, plan, plan', slot, h => by
    rw [descend, descend]
    obtain ⟨hparameter, hposition⟩ := h.addParameter (.integer id)
    obtain ⟨hnext, hslot⟩ := hparameter.nextSlot type unknown rest
    simp only [hposition, hslot]
    exact (hnext.addEdge _ _ _ path).bind fun _ _ he => agree_descend_adds he

end

/-! ### Conditions and matches -/

section

variable {schema : Schema} {stem : String} {path : List Nat} {name : String} {label : Option Label}
  {old new : Joined}

theorem Plan.Adds.select {plan plan' : Plan} (h : Plan.Adds label plan plan') (path : List Nat)
    (output type : String) (slot : Nat) : Plan.Adds label
      (if path.isEmpty then plan.addOutput output type slot else plan)
      (if path.isEmpty then plan'.addOutput output type slot else plan') := by
  split_ifs
  · exact h.addOutput output type slot
  · exact h

theorem Joined.Adds.refl (name : String) (joined : Joined) : joined.Adds name none joined :=
  ⟨.refl joined.plan, fun _ _ => rfl⟩

theorem Joined.Adds.bind (h : old.Adds name label new) {plan plan' : Plan}
    (hp : Plan.Adds label plan plan') (other : String) (fact : Plan.Fact) :
    Joined.Adds name label ⟨plan, (other, fact) :: old.bindings⟩
      ⟨plan', (other, fact) :: new.bindings⟩ where
  plan := hp
  bindings key hne := by
    rw [List.lookup_cons, List.lookup_cons, h.bindings key hne]

namespace Branch

variable {branch branch' : Branch} {next next' : Joined → Except PlanError Branch}

theorem agree_andThen {join join' : Except PlanError Branch}
    (h : Except.Agree (Adds name label) join join')
    (hn : ∀ joined joined', Joined.Adds name label joined joined' →
      Except.Agree (Adds name label) (next joined) (next' joined')) :
    Except.Agree (Adds name label) (do let branch ← join; branch.andThen next)
      (do let branch ← join'; branch.andThen next') := by
  refine h.bind fun branch branch' hb => ?_
  obtain ⟨completed, last⟩ := branch
  obtain ⟨completed', last'⟩ := branch'
  cases hb with
  | none => exact Option.Rel.none
  | some hj => exact (hn _ _ hj).bind fun _ _ hrest => hrest

theorem Adds.forget (h : branch.Adds name label branch') {bindings bindings' : Bindings}
    (hb : ∀ other, other ≠ name → bindings'.lookup other = bindings.lookup other)
    (completed completed' : List Plan) :
    Adds name label ⟨completed, branch.last.map fun last => ⟨last.plan, bindings⟩⟩
      ⟨completed', branch'.last.map fun last => ⟨last.plan, bindings'⟩⟩ := by
  obtain ⟨_, last⟩ := branch
  obtain ⟨_, last'⟩ := branch'
  cases h with
  | none => exact .none
  | some hj => exact .some ⟨hj.plan, hb⟩

end Branch

/-- **A path condition that does not mention the label is joined alike**, or dropped. -/
theorem PathCondition.agree_join_adds {condition : PathCondition} {unknown : Label}
    (h : old.Adds name label new) (hu : unknown.name ≠ name) (hr : condition.labelRight ≠ name) :
    Except.Agree (Branch.Adds name label) (condition.join schema stem path unknown old)
      (condition.join schema stem path unknown new) := by
  unfold PathCondition.join
  rw [h.bindings _ hr, h.bindings _ hu]
  have huse := h.plan.useInput condition.labelRight
  rcases hold : old.plan.useInput condition.labelRight with _ | used <;>
    rcases hnew : new.plan.useInput condition.labelRight with _ | used' <;>
    rw [hold, hnew] at huse <;> cases huse
  · exact .none
  rename_i huse
  rcases old.bindings.lookup condition.labelRight with _ | right
  · trivial
  refine (agree_ascend_adds huse).bind fun up up' hup => ?_
  cases hup with
  | none => exact Option.Rel.none
  | @some up up' hup =>
  obtain ⟨middle, slot⟩ := up
  obtain ⟨middle', slot'⟩ := up'
  obtain ⟨hmiddle, rfl⟩ := hup
  rcases resolveRoles schema unknown.type condition.rolesLeft with _ | roles
  · exact Option.Rel.none
  refine (agree_descend_adds hmiddle).bind fun down down' hdown => ?_
  obtain ⟨final, last⟩ := down
  obtain ⟨final', last'⟩ := down'
  obtain ⟨hfinal, rfl⟩ := hdown
  rcases old.bindings.lookup unknown.name with _ | bound
  · exact .some (h.bind (hfinal.select path _ _ _) _ _)
  · exact .some ⟨hfinal, h.bindings⟩

mutual

theorem Condition.agree_join_adds : ∀ {condition : Condition} {path : List Nat} {unknown : Label}
    {old new : Joined} {label : Option Label}, old.Adds name label new → unknown.name ≠ name →
    name ∉ condition.labels → Except.Agree (Branch.Adds name label)
      (condition.join schema stem path unknown old) (condition.join schema stem path unknown new)
  | .path condition, path, unknown, old, new, label, h, hu, hn =>
    PathCondition.agree_join_adds h hu fun he => hn (he ▸ List.mem_singleton_self _)
  | .existential true block, path, unknown, old, new, label, h, _, hn =>
    (Match.agree_joinAll_adds h hn).bind fun _ _ hi => hi.forget h.bindings _ _
  | .existential false block, path, unknown, old, new, label, h, _, hn => by
    rw [Condition.join, Condition.join]
    refine (Match.agree_joinAll_adds h hn).bind fun failing failing' _ => ?_
    refine (h.plan.addGroup path).bind fun group group' hg => ?_
    obtain ⟨opened, inner⟩ := group
    obtain ⟨opened', inner'⟩ := group'
    obtain ⟨hopened, rfl⟩ := hg
    have hinner : Joined.Adds name label ⟨opened, old.bindings⟩ ⟨opened', new.bindings⟩ :=
      ⟨hopened, h.bindings⟩
    refine (Match.agree_joinAll_adds hinner hn).bind fun absent absent' ha => ?_
    obtain ⟨_, last⟩ := absent
    obtain ⟨_, last'⟩ := absent'
    cases ha with
    | none => exact .some h
    | some hj => exact .some ⟨hj.plan, h.bindings⟩

/-- **Matches that do not mention the label are joined alike.** -/
theorem Match.agree_joinAll_adds : ∀ {block : List Match} {path : List Nat}
    {old new : Joined} {label : Option Label}, old.Adds name label new →
    name ∉ Match.labelsAll block → Except.Agree (Branch.Adds name label)
      (Match.joinAll schema stem path old block) (Match.joinAll schema stem path new block)
  | [], _, _, _, _, h, _ => .some h
  | ⟨unknown, conditions⟩ :: rest, path, old, new, label, h, hn => by
    obtain ⟨hu, hconditions, hrest⟩ := Match.not_mem_labelsAll_cons.mp hn
    rw [Match.joinAll, Match.joinAll, Match.join, Match.join]
    exact Branch.agree_andThen (Condition.agree_joinAll_adds h hu.symm hconditions)
      fun _ _ hj => Match.agree_joinAll_adds hj hrest

theorem Condition.agree_joinAll_adds : ∀ {conditions : List Condition} {path : List Nat}
    {unknown : Label} {old new : Joined} {label : Option Label}, old.Adds name label new →
    unknown.name ≠ name → name ∉ Condition.labelsAll conditions →
    Except.Agree (Branch.Adds name label)
      (Condition.joinAll schema stem path unknown old conditions)
      (Condition.joinAll schema stem path unknown new conditions)
  | [], _, _, _, _, _, h, _, _ => .some h
  | condition :: rest, path, unknown, old, new, label, h, hu, hn => by
    rw [Condition.labelsAll, List.mem_append, not_or] at hn
    rw [Condition.joinAll, Condition.joinAll]
    exact Branch.agree_andThen (Condition.agree_join_adds h hu hn.1)
      fun _ _ hj => Condition.agree_joinAll_adds hj hu hn.2

end

end

end FactGraph
