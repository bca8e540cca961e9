import FactGraph.Proofs.Plan.Additions
import FactGraph.Proofs.Plan.Order
import FactGraph.Proofs.Plan.Usable
import FactGraph.Proofs.Walk.Intermediates

/-! # Plans through intermediate facts

A path condition on a new label is joined along a route: up its right side and down its left side.
The roles in front of a cut and those behind it make the same route, wherever the path condition is
cut, so a match of the fact at the cut changes nothing about a plan but what is selected.

* `PathCondition.Cut.route_eq`: the route of a path condition, put together at the cut.
* `PathCondition.Cut.agree_join`: a path condition and the two parts of it.
* `Specification.Naming.agree_joinAll`: matches with an intermediate fact, wherever it stands.
* `Specification.Naming.named_alike`: the walk and the plan of a whole specification. -/

namespace FactGraph

variable {schema : Schema} {stem : String} {path : List Nat}

/-! ### Routes -/

theorem ascend_append : ∀ {roles others : List Role} {plan : Plan} {slot : Nat} {type : String},
    ascend schema path none plan slot type (roles ++ others) = (do
      match ← ascend schema path none plan slot type roles with
      | none => return none
      | some (plan, slot) => ascend schema path none plan slot (endType type roles) others)
  | [], _, _, _, _ => rfl
  | role :: roles, others, plan, slot, type => by
    rw [List.cons_append, ascend, ascend, endType_cons]
    rcases schema.roleOf type role.name with _ | id
    · rfl
    · simp only [nextSlot_none, ascend_append, bind_assoc]

theorem resolveRoles_append : ∀ {roles others : List Role} {type : String},
    resolveRoles schema type (roles ++ others) = (do
      let ids ← resolveRoles schema type roles
      let more ← resolveRoles schema (endType type roles) others
      return ids ++ more)
  | [], others, type => by
    rcases h : resolveRoles schema type others <;> simp [resolveRoles, endType, h]
  | role :: roles, others, type => by
    rw [List.cons_append, resolveRoles, resolveRoles, endType_cons, resolveRoles_append]
    rcases schema.roleOf type role.name with _ | id <;>
      rcases resolveRoles schema role.target roles with _ | ids <;>
      rcases resolveRoles schema (endType role.target roles) others with _ | more <;> rfl

theorem descend_append : ∀ {ids more : List (Int × String)} {plan : Plan} {slot : Nat},
    descend path none plan slot (ids ++ more) = (do
      let (plan, slot) ← descend path none plan slot ids
      descend path none plan slot more)
  | [], _, _, _ => rfl
  | (id, type) :: ids, more, plan, slot => by
    rw [List.cons_append, descend, descend]
    simp only [nextSlot_none, descend_append, bind_assoc]

/-- Joins the roles of a path condition from a slot that holds a fact of a type, through new slots:
up those of the right side, and down those of the left side to the unknown. -/
def PathCondition.route (schema : Schema) (path : List Nat) (condition : PathCondition)
    (type unknown : String) (plan : Plan) (slot : Nat) : Except PlanError (Option (Plan × Nat)) := do
  match ← ascend schema path none plan slot type condition.rolesRight with
  | none => return none
  | some (plan, slot) =>
    match resolveRoles schema unknown condition.rolesLeft with
    | none => return none
    | some roles => return some (← descend path none plan slot roles.reverse)

/-- **The route of a path condition consists of those in front of the cut and behind it.** -/
theorem PathCondition.Cut.route_eq (cut : Cut) (hne : cut.roles ≠ []) (name type unknown : String)
    {plan : Plan} (slot : Nat) (hb : plan.HasBranch path) :
    cut.whole.route schema path type unknown plan slot = (do
      match ← cut.near.route schema path type (endType unknown cut.roles) plan slot with
      | none => return none
      | some (plan, slot) =>
        (cut.far name).route schema path (endType unknown cut.roles) unknown plan slot) := by
  cases cut with
  | left roles others labelRight rolesRight =>
    simp only [route, whole, near, far, PathCondition.Cut.roles, resolveRoles_append]
    obtain ⟨result, hup, hextends, -⟩ :=
      @exists_ascend schema path none rolesRight plan slot type hb
    rw [hup]
    rcases result with _ | ⟨middle, bottom⟩
    · rfl
    have hmiddle : middle.HasBranch path := (hextends _ rfl).branches path hb
    rcases resolveRoles schema (endType unknown roles) others with _ | more
    · rcases resolveRoles schema unknown roles with _ | ids <;> rfl
    -- the roles behind the cut are joined before those in front of it are resolved
    obtain ⟨⟨below, last⟩, hdown, -⟩ := @exists_descend path none more.reverse middle bottom hmiddle
    rcases resolveRoles schema unknown roles with _ | ids
    · show _ = (descend path none middle bottom more.reverse >>= _) >>= _
      rw [hdown]
      rfl
    · show descend path none middle bottom (ids ++ more).reverse >>= _ =
        (descend path none middle bottom more.reverse >>= _) >>= _
      rw [List.reverse_append, descend_append, hdown]
      rfl
  | right rolesLeft labelRight roles others =>
    have hmiddle : endType unknown roles = endType type roles := endType_congr hne _ _
    simp only [route, whole, near, far, PathCondition.Cut.roles, ascend_append, hmiddle]
    rcases ascend schema path none plan slot type roles with e | _ | ⟨middle, top⟩
    · rfl
    · rfl
    · rfl

namespace PathCondition

variable {condition : PathCondition} {type unknown : String} {plan plan' new : Plan}
  {slot last : Nat} {label : Option Label}

theorem usable_of_route
    (h : condition.route schema path type unknown plan slot = .ok (some (new, last))) :
    new.usable = plan.usable := by
  obtain ⟨_ | ⟨middle, top⟩, hup, h⟩ := Except.bind_eq_ok_iff.mp h
  · cases h
  rcases hroles : resolveRoles schema unknown condition.rolesLeft with _ | roles <;>
    simp only [hroles] at h
  · cases h
  obtain ⟨⟨final, end'⟩, hdown, h⟩ := Except.bind_eq_ok_iff.mp h
  cases h
  obtain ⟨_, hup, -⟩ := ascend_chained hup
  obtain ⟨_, hdown, -⟩ := descend_chained hdown
  rw [Plan.usable, (hup.trans hdown).inputs_eq, Plan.usable]

theorem agree_route_adds (h : Plan.Adds label plan plan') :
    Except.Agree (Option.Rel (Plan.AddsWith label))
      (condition.route schema path type unknown plan slot)
      (condition.route schema path type unknown plan' slot) := by
  refine (agree_ascend_adds h).bind fun up up' hup => ?_
  cases hup with
  | none => exact Option.Rel.none
  | @some up up' hup =>
  obtain ⟨middle, top⟩ := up
  obtain ⟨middle', top'⟩ := up'
  obtain ⟨hmiddle, rfl⟩ := hup
  rcases resolveRoles schema unknown condition.rolesLeft with _ | roles
  · exact Option.Rel.none
  · exact (agree_descend_adds hmiddle).bind fun _ _ hdown => Option.Rel.some hdown

end PathCondition

/-! ### Path conditions on new labels -/

/-- What a compilation goes on from where a path condition arrives at a new label. The label is
bound, and selected in the unconditional branch. -/
def Joined.arrive (stem : String) (path : List Nat) (unknown : Label) (bindings : Bindings)
    (plan : Plan) (slot : Nat) : Joined :=
  ⟨if path.isEmpty then plan.addOutput (stem ++ unknown.name) unknown.type slot else plan,
    (unknown.name, ⟨slot, unknown.type⟩) :: bindings⟩

/-- **A path condition on a new label is joined along its route**, or dropped. -/
theorem PathCondition.join_eq_route {condition : PathCondition} {unknown : Label}
    {joined : Joined} {used : Plan} {right : Plan.Fact}
    (huse : joined.plan.useInput condition.labelRight = some used)
    (hright : joined.bindings.lookup condition.labelRight = some right)
    (hfresh : joined.bindings.lookup unknown.name = none) :
    condition.join schema stem path unknown joined = (do
      match ← condition.route schema path right.type unknown.type used right.slot with
      | none => return .dropped
      | some (plan, slot) =>
        return .continued (.arrive stem path unknown joined.bindings plan slot)) := by
  rw [PathCondition.join, huse, hright, PathCondition.route]
  simp only [hfresh, ite_self, bind_assoc]
  rcases ascend schema path none used right.slot right.type condition.rolesRight with
    e | _ | ⟨middle, top⟩
  · rfl
  · rfl
  rcases resolveRoles schema unknown.type condition.rolesLeft with _ | roles
  · rfl
  · show descend path none middle top roles.reverse >>= _ =
      (descend path none middle top roles.reverse >>= _) >>= _
    rcases descend path none middle top roles.reverse with e | ⟨final, last⟩ <;> rfl

theorem Plan.Adds.of_select (m : Label) (plan : Plan) (slot : Nat) :
    Plan.Adds (if path.isEmpty then some m else none) plan
      (if path.isEmpty then plan.addOutput ("" ++ m.name) m.type slot else plan) := by
  split_ifs
  · exact ⟨rfl, plan.outputs, [], slot, by simp, by simp [Plan.addOutput]⟩
  · exact .refl plan

/-- **A path condition and its two parts are joined alike**, or dropped. The second way binds the
label at the cut besides, and selects it in the unconditional branch. -/
theorem PathCondition.Cut.agree_join (cut : Cut) (hcut : cut.roles ≠ []) {name : String}
    {unknown : Label} {joined : Joined} (hne : name ≠ unknown.name)
    (hfresh : joined.bindings.lookup unknown.name = none)
    (hname : joined.bindings.lookup name = none)
    (hinput : name ∉ joined.plan.usable.map Prod.fst) (hb : joined.plan.HasBranch path) :
    let middle : Label := ⟨name, endType unknown.type cut.roles⟩
    Except.Agree (Branch.Adds name (if path.isEmpty then some middle else none))
      (cut.whole.join schema "" path unknown joined) (do
        let branch ← cut.near.join schema "" path middle joined
        branch.andThen ((cut.far name).join schema "" path unknown ·)) := by
  intro middle
  rcases huse : joined.plan.useInput cut.whole.labelRight with _ | used
  · simp only [PathCondition.join, near_labelRight, huse]
    exact Option.Rel.none
  rcases hright : joined.bindings.lookup cut.whole.labelRight with _ | right
  · simp only [PathCondition.join, near_labelRight, huse, hright]
    trivial
  have hused : used.HasBranch path := (Plan.useInput_extends huse).branches path hb
  rw [join_eq_route huse hright hfresh, join_eq_route (by rwa [near_labelRight])
    (by rwa [near_labelRight]) hname, cut.route_eq hcut name right.type unknown.type right.slot hused]
  simp only [bind_assoc]
  refine .of_bind fun result hr => ?_
  rcases result with _ | ⟨plan, slot⟩
  · exact Option.Rel.none
  -- the path goes on from the label at the cut, which is no input
  let bound := Joined.arrive "" path middle joined.bindings plan slot
  have husable : bound.plan.usable = plan.usable := by
    show (if path.isEmpty then _ else plan).usable = _
    split_ifs <;> rfl
  have huse' : bound.plan.useInput (cut.far name).labelRight = some bound.plan := by
    rw [far_labelRight]
    refine Plan.useInput_eq_self ?_
    rwa [husable, usable_of_route hr, Plan.usable_of_useInput huse]
  have hright' : bound.bindings.lookup (cut.far name).labelRight = some ⟨slot, middle.type⟩ := by
    rw [far_labelRight]
    exact List.lookup_cons_self
  have hfresh' : bound.bindings.lookup unknown.name = none := by
    rw [← hfresh]
    show List.lookup _ (_ :: _) = _
    rw [List.lookup_cons, beq_eq_false_iff_ne.mpr hne.symm]
  show Except.Agree _ ((cut.far name).route schema path middle.type unknown.type plan slot >>= _)
    ((Branch.continued bound).andThen _)
  rw [Branch.continued_andThen, join_eq_route huse' hright' hfresh']
  refine (agree_route_adds (Plan.Adds.of_select middle plan slot)).bind fun result result' h => ?_
  cases h with
  | none => exact Option.Rel.none
  | @some end' end'' h =>
  obtain ⟨final, last⟩ := end'
  obtain ⟨final', last'⟩ := end''
  obtain ⟨hfinal, rfl⟩ := h
  refine .some ⟨hfinal.select path _ _ _, fun other hother => ?_⟩
  have hskip : bound.bindings.lookup other = joined.bindings.lookup other := by
    show List.lookup _ (_ :: _) = _
    rw [List.lookup_cons, beq_eq_false_iff_ne.mpr hother]
  show List.lookup _ (_ :: _) = List.lookup _ (_ :: _)
  rw [List.lookup_cons, List.lookup_cons, hskip]

/-! ### Matches anywhere in a block -/

theorem Branch.agree_bind_andThen {name : String} {label : Option Label}
    {join : Except PlanError Branch} {next next' : Joined → Except PlanError Branch}
    (h : ∀ branch joined, join = .ok branch → branch.last = some joined →
      Except.Agree (Adds name label) (next joined) (next' joined)) :
    Except.Agree (Adds name label) (do let branch ← join; branch.andThen next)
      (do let branch ← join; branch.andThen next') := by
  refine .of_bind fun branch hj => ?_
  obtain ⟨completed, _ | joined⟩ := branch
  · exact Option.Rel.none
  · exact (h _ joined hj rfl).bind fun _ _ hrest => hrest

theorem Condition.agree_join_positive {name : String} {label : Option Label} {unknown : Label}
    {joined : Joined} {block block' : List Match}
    (h : Except.Agree (Branch.Adds name label) (Match.joinAll schema stem path joined block)
      (Match.joinAll schema stem path joined block')) :
    Except.Agree (Branch.Adds name label)
      (Condition.join schema stem path unknown joined (.existential true block))
      (Condition.join schema stem path unknown joined (.existential true block')) :=
  h.bind fun _ _ hb => hb.forget (fun _ _ => rfl) _ _

/-- A negative condition is joined alike if its block is, inside of its group as well. -/
theorem Condition.agree_join_negative {name : String} {label : Option Label} {unknown : Label}
    {joined : Joined} {block block' : List Match}
    (h : Except.Agree (Branch.Adds name label) (Match.joinAll schema stem path joined block)
      (Match.joinAll schema stem path joined block'))
    (hgroup : ∀ opened inner, joined.plan.addGroup path = .ok (opened, inner) →
      Except.Agree (Branch.Adds name none)
        (Match.joinAll schema stem inner ⟨opened, joined.bindings⟩ block)
        (Match.joinAll schema stem inner ⟨opened, joined.bindings⟩ block')) :
    Except.Agree (Branch.Adds name none)
      (Condition.join schema stem path unknown joined (.existential false block))
      (Condition.join schema stem path unknown joined (.existential false block')) := by
  rw [Condition.join, Condition.join]
  refine h.bind fun failing failing' _ => Except.Agree.of_bind fun group hg => ?_
  obtain ⟨opened, inner⟩ := group
  refine (hgroup opened inner hg).bind fun absent absent' ha => ?_
  obtain ⟨_, last⟩ := absent
  obtain ⟨_, last'⟩ := absent'
  cases ha with
  | none => exact Option.Rel.some (.refl name joined)
  | some hj => exact .some ⟨hj.plan, fun _ _ => rfl⟩

/-- The hole of a context is outside of all negative blocks. -/
def Match.Context.unconditional : Match.Context → Bool
  | here _ => true
  | behind _ context => context.unconditional
  | inside _ _ holds context _ _ => holds && context.unconditional

namespace Specification.Naming

variable {n : Naming} {scope inner : Scope} {rest : List Match} {type : String} {joined : Joined}

/-- The label that is selected besides, if any, where a join reaches a context. -/
def selected (n : Naming) (context : Match.Context) (path : List Nat) : Option Label :=
  if path.isEmpty && context.unconditional then some n.label else none

/-- A compilation has come to where the label of an intermediate fact is new. -/
structure Ready (n : Naming) (scope : Scope) (path : List Nat) (joined : Joined) : Prop where
  within : joined.Within scope
  fresh : scope.type? n.name = none
  input : n.name ∉ joined.plan.usable.map Prod.fst
  branch : joined.plan.HasBranch path

theorem Ready.lookup_eq_none (h : n.Ready scope path joined) :
    joined.bindings.lookup n.name = none :=
  h.within.lookup_eq_none (show scope.type? n.label.name = none from h.fresh)

theorem joinAll_direct (n : Naming) (rest : List Match) (joined : Joined) :
    Match.joinAll schema stem path joined (n.direct :: rest) = (do
      let branch ← (do
        let branch ← n.cut.whole.join schema stem path n.unknown joined
        branch.andThen (Condition.joinAll schema stem path n.unknown · n.conditions))
      branch.andThen (Match.joinAll schema stem path · rest)) := by
  rw [direct, Match.joinAll, Match.join, Condition.joinAll, Condition.join]

theorem joinAll_split (n : Naming) (rest : List Match) (joined : Joined) :
    Match.joinAll schema stem path joined (n.split ++ rest) = (do
      let branch ← (do
        let branch ← (do
          let branch ← n.cut.near.join schema stem path n.label joined
          branch.andThen ((n.cut.far n.name).join schema stem path n.unknown ·))
        branch.andThen (Condition.joinAll schema stem path n.unknown · n.conditions))
      branch.andThen (Match.joinAll schema stem path · rest)) := by
  rw [split, List.cons_append, List.singleton_append, Match.joinAll, Match.join]
  simp only [Match.joinAll, Match.join, Condition.joinAll, Condition.join,
    Branch.andThen_continued, bind_assoc, Branch.andThen_assoc]
  rfl

/-- **A match of an intermediate fact changes nothing about a join** of a match in front of others,
but what is selected. -/
theorem agree_joinAll_split (h : n.Checked scope rest inner type) (hr : n.Ready scope path joined)
    (hcut : n.cut.roles ≠ []) (hn : n.name ∉ Match.labelsAll (n.direct :: rest)) :
    Except.Agree (Branch.Adds n.name (if path.isEmpty then some n.label else none))
      (Match.joinAll schema "" path joined (n.direct :: rest))
      (Match.joinAll schema "" path joined (n.split ++ rest)) := by
  obtain ⟨hne, hconditions, hrest⟩ := Match.not_mem_labelsAll_cons.mp hn
  rw [Condition.labelsAll, List.mem_append, not_or] at hconditions
  rw [joinAll_direct, joinAll_split]
  refine Branch.agree_andThen (Branch.agree_andThen ?_ fun _ _ hj => ?_) fun _ _ hj => ?_
  · exact n.cut.agree_join hcut hne (hr.within.lookup_eq_none h.fresh) hr.lookup_eq_none hr.input
      hr.branch
  · exact Condition.agree_joinAll_adds hj hne.symm hconditions.2
  · exact Match.agree_joinAll_adds hj hrest

theorem Ready.of_conditions {unknown : Label} {conditions : List Condition} {branch : Branch}
    {next : Joined} (hr : n.Ready scope path joined) (hnew : scope.type? unknown.name = none)
    (hone : (Match.paths ⟨unknown, conditions⟩).length ≤ 1)
    (hc : Condition.checkAll (scope.bind unknown) unknown conditions = .ok ())
    (hne : n.name ≠ unknown.name)
    (hj : Condition.joinAll schema stem path unknown joined conditions = .ok branch)
    (hl : branch.last = some next) : n.Ready (scope.bind unknown) path next := by
  obtain ⟨hruns, hwithin⟩ := Condition.joinAll_runs conditions (hr.within.bind hnew)
    Scope.type?_bind_self hone (fun _ => hr.within.lookup_eq_none hnew) hc hj
  obtain ⟨_, hreaches, -⟩ := hruns.last next hl
  exact {
    within := hwithin next hl
    fresh := by rw [Scope.type?_bind_of_ne hne, hr.fresh]
    input := by rw [hreaches.usable_eq]; exact hr.input
    branch := Condition.hasBranch_of_joinAll hr.branch hj hl }

theorem Ready.of_addGroup {opened : Plan} {inside : List Nat} (hr : n.Ready scope path joined)
    (hg : joined.plan.addGroup path = .ok (opened, inside)) :
    n.Ready scope inside ⟨opened, joined.bindings⟩ where
  within := hr.within
  fresh := hr.fresh
  input := by rw [Plan.usable_of_addGroup hg]; exact hr.input
  branch := (Plan.edgeCount_of_addGroup hg hr.branch).1

/-- **A match of an intermediate fact changes nothing about a join**, wherever it stands, but what
is selected. -/
theorem agree_joinAll (hcut : n.cut.roles ≠ []) : ∀ {context : Match.Context} {scope inner : Scope}
    {path : List Nat} {joined : Joined},
    Match.checkAll scope (context.fill [n.direct]) = .ok inner → n.Ready scope path joined →
    n.name ∉ Match.labelsAll (context.fill [n.direct]) →
      Except.Agree (Branch.Adds n.name (n.selected context path))
        (Match.joinAll schema "" path joined (context.fill [n.direct]))
        (Match.joinAll schema "" path joined (context.fill n.split))
  | .here rest, scope, inner, path, joined, hc, hr, hn => by
    obtain ⟨type, h⟩ := Checked.of_checkAll hcut hc
    rw [selected, Match.Context.unconditional, Bool.and_true]
    exact agree_joinAll_split h hr hcut hn
  | .behind ⟨unknown, conditions⟩ context, scope, inner, path, joined, hc, hr, hn => by
    obtain ⟨hnew, hone, hconditions, hrest⟩ := Match.checkAll_cons_eq_ok_iff.mp hc
    obtain ⟨hne, -, hn⟩ := Match.not_mem_labelsAll_cons.mp hn
    rw [Match.Context.fill, Match.Context.fill, Match.joinAll, Match.joinAll]
    exact Branch.agree_bind_andThen fun branch next hj hl => agree_joinAll hcut hrest
      (hr.of_conditions hnew (Nat.le_of_eq hone) hconditions hne hj hl) hn
  | .inside unknown before holds context after rest, scope, inner, path, joined, hc, hr, hn => by
    obtain ⟨hnew, hone, hconditions, -⟩ := Match.checkAll_cons_eq_ok_iff.mp hc
    obtain ⟨hne, hn, hnrest⟩ := Match.not_mem_labelsAll_cons.mp hn
    obtain ⟨-, hnblock, hnafter⟩ := Condition.not_mem_labelsAll_around.mp hn
    obtain ⟨_, hblock⟩ := Condition.check_existential_eq_ok_iff.mp
      (Condition.checkAll_eq_ok_iff.mp hconditions _ List.mem_append_cons_self)
    rw [Match.Context.fill, Match.Context.fill, Match.joinAll, Match.joinAll, Match.join,
      Match.join, Condition.joinAll_append, Condition.joinAll_append]
    refine Branch.agree_andThen (Branch.agree_bind_andThen fun branch next hj hl => ?_)
      fun _ _ hj => Match.agree_joinAll_adds hj hnrest
    rw [Condition.joinAll, Condition.joinAll]
    refine Branch.agree_andThen ?_ fun _ _ hj => Condition.agree_joinAll_adds hj hne.symm hnafter
    have hnext : n.Ready (scope.bind unknown) path next :=
      hr.of_conditions hnew ((((List.sublist_append_left before _).filterMap _).length_le).trans
        (Nat.le_of_eq hone)) (Condition.checkAll_eq_ok_iff.mpr fun condition hm =>
          Condition.checkAll_eq_ok_iff.mp hconditions condition (List.mem_append_left _ hm)) hne hj hl
    have hblocks := agree_joinAll hcut hblock hnext hnblock
    cases holds with
    | true => exact Condition.agree_join_positive hblocks
    | false =>
      have hnone : n.selected (.inside unknown before false context after rest) path = none :=
        if_neg (by simp [Match.Context.unconditional])
      rw [hnone]
      refine Condition.agree_join_negative hblocks fun opened inside hg => ?_
      have hgroup := agree_joinAll hcut hblock (hnext.of_addGroup hg) hnblock
      have hnone' : n.selected context inside = none :=
        if_neg (by simp [(Plan.outputs_of_addGroup hg).1])
      rwa [hnone'] at hgroup

end Specification.Naming

/-! ### Specifications -/

namespace Specification

/-- The hole of a context is in the matches of the specification, outside of all negative blocks. -/
def Context.unconditional : Context → Bool
  | inBody _ context _ => context.unconditional
  | inProjections _ _ _ => false

/-- The plan for the matches of a specification, unless one of them is dropped. -/
def bodyPlan (spec : Specification) (schema : Schema) (start : List FactReference) :
    Except PlanError (Option Plan) := do
  let branch ← Match.joinAll schema "" [] (spec.initial schema start) spec.body
  return branch.last.map Joined.plan

namespace Naming

variable {n : Naming} {start : List FactReference}

theorem ready_initial {spec : Specification} {scope : Scope}
    (hgiven : Scope.declareAll [] spec.given = .ok scope)
    (hn : n.name ∉ spec.given.map Label.name) : n.Ready scope [] (spec.initial schema start) where
  within := within_initial hgiven
  fresh := by
    obtain ⟨rfl, -, -⟩ := Scope.declareAll_eq_ok hgiven
    rw [← Scope.not_sees_iff, Scope.sees_bindAll_iff]
    exact not_or_intro hn Bool.false_ne_true
  input hm := by
    obtain ⟨entry, hentry, he⟩ := List.mem_map.mp hm
    obtain ⟨input, hinput, rfl⟩ := List.mem_map.mp hentry
    obtain ⟨i, label, ref, hl, -, rfl⟩ :=
      mem_inputs (show input ∈ spec.inputs schema start from hinput)
    exact hn (he ▸ List.mem_map_of_mem (List.mem_of_getElem? hl))
  branch := Plan.hasBranch_nil _

/-- **A label for an intermediate fact changes nothing but the labels.** The walk of the
specification is the same, or fails in the same way. The plan for its matches is the same, whatever
the catalog, but that it selects the label if it is unconditional. -/
theorem named_alike (ha : n.unnamed.Accepted) (h : n.Proper) :
    n.named.walk = n.unnamed.walk ∧ ∀ (schema : Schema) (start : List FactReference),
      Except.Agree (Option.Rel (Plan.Adds (if n.context.unconditional then some n.label else none)))
        (n.unnamed.bodyPlan schema start) (n.named.bodyPlan schema start) := by
  refine ⟨walk_named h ha.check, fun schema start => ?_⟩
  obtain ⟨context, unknown, cut, conditions, name⟩ := n
  cases context with
  | inProjections given body context =>
    refine Except.Agree.refl (fun plan => ?_) _
    rcases plan with _ | plan
    · exact .none
    · exact .some (.refl plan)
  | inBody given context projections =>
    obtain ⟨scope, hgiven, hc⟩ := Except.bind_eq_ok_iff.mp ha.check
    obtain ⟨_, hbody, -⟩ := Except.bind_eq_ok_iff.mp hc
    refine (agree_joinAll h.roles hbody (ready_initial hgiven h.given) h.body).bind
      fun branch branch' hb => ?_
    obtain ⟨_, last⟩ := branch
    obtain ⟨_, last'⟩ := branch'
    cases hb with
    | none => exact Option.Rel.none
    | some hj => exact Option.Rel.some hj.plan

/-- The tasks of the projects of a root that have not been finished, with the roles to the root cut
behind the project. -/
def openTasks : Naming :=
  ⟨.inBody [⟨"root", "Root"⟩] (.here []) [], ⟨"t", "Task"⟩,
    .left [⟨"project", "Project"⟩] [⟨"root", "Root"⟩] "root" [],
    [.existential false [referring "f" "Finished" "task" "t" "Task"]], "p"⟩

theorem accepted_openTasks : openTasks.unnamed.Accepted := accepted_of_isPrintable rfl rfl

theorem proper_openTasks : openTasks.Proper := ⟨by decide, by decide, by decide⟩

theorem named_alike_openTasks : openTasks.unnamed.Accepted ∧ openTasks.Proper ∧
    openTasks.named.walk = openTasks.unnamed.walk ∧
    ∃ old new, openTasks.unnamed.bodyPlan Schema.single [⟨"Root", "r"⟩] = .ok (some old) ∧
      openTasks.named.bodyPlan Schema.single [⟨"Root", "r"⟩] = .ok (some new) ∧
      Plan.Adds (some ⟨"p", "Project"⟩) old new := by
  have hunnamed : (do
      let plan ← openTasks.unnamed.bodyPlan Schema.single [⟨"Root", "r"⟩]
      return plan.isSome) = .ok true := by decide +kernel
  have hnamed : (do
      let plan ← openTasks.named.bodyPlan Schema.single [⟨"Root", "r"⟩]
      return plan.isSome) = .ok true := by decide +kernel
  obtain ⟨_, hold, hsome⟩ := Except.bind_eq_ok_iff.mp hunnamed
  obtain ⟨old, rfl⟩ := Option.isSome_iff_exists.mp (Except.ok.inj hsome)
  obtain ⟨_, hnew, hsome⟩ := Except.bind_eq_ok_iff.mp hnamed
  obtain ⟨new, rfl⟩ := Option.isSome_iff_exists.mp (Except.ok.inj hsome)
  obtain ⟨hwalk, hplan⟩ := @named_alike openTasks accepted_openTasks proper_openTasks
  have hadds := Except.Agree.of_ok (hplan _ _) hold hnew
  cases hadds with
  | some hadds => exact ⟨accepted_openTasks, proper_openTasks, hwalk, old, new, hold, hnew, hadds⟩

end Naming

end Specification

end FactGraph
