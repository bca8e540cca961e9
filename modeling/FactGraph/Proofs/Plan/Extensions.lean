import FactGraph.Proofs.Plan.Order
import FactGraph.Proofs.Plan.Steps

/-! # What a compilation keeps

Positions of parameters, numbers of slots and paths of branches are handed on from plan to plan.
They stay valid because a compilation only appends: whatever it joins becomes a part of the branch
that it goes on with, and everything else that the plan lists stays where it is. Inside of a group
nothing is selected, and outside of groups only slots that the plan carries.

* `Plan.Group.exists_kept_grow`: what grows at a path extends every branch, and changes no branch
  that is not on the path.
* `Joined.Proceeds.appends`: a compilation appends, by induction on its steps.
* `Match.extended_of_joinAll`: **every plan that a join of matches emits or ends with extends the
  plan from which it started.** -/

namespace FactGraph

namespace Plan

/-! ### Groups -/

namespace Group

/-- The edges of a group come first in another one, and so do its groups, extended in turn. -/
inductive Extended : Group → Group → Prop
  | intro {old new : Group} (edges : old.edges <+: new.edges)
      (count : old.groups.length ≤ new.groups.length)
      (groups : ∀ (index : Nat) (inner inner' : Group), old.groups[index]? = some inner →
        new.groups[index]? = some inner' → Extended inner inner') : Extended old new

theorem sizeOf_lt_of_getElem?_eq_some {group inner : Group} {index : Nat}
    (h : group.groups[index]? = some inner) : sizeOf inner < sizeOf group := by
  have hs := List.sizeOf_lt_of_mem (List.mem_of_getElem? h)
  obtain ⟨edges, groups⟩ := group
  simp only [Group.mk.sizeOf_spec] at hs ⊢
  omega

theorem Extended.refl (group : Group) : group.Extended group := by
  refine .intro (List.prefix_refl _) (Nat.le_refl _) fun index inner inner' hi hi' => ?_
  obtain rfl : inner = inner' := Option.some_inj.mp (hi.symm.trans hi')
  exact Extended.refl inner
termination_by sizeOf group
decreasing_by exact sizeOf_lt_of_getElem?_eq_some hi

/-- **What grows extends a group.** -/
theorem extended_grow {added : Group} : ∀ (path : List Nat) (group : Group),
    group.Extended (grow added path group)
  | [], group => by
    refine .intro (List.prefix_append _ _) ?_ fun index inner inner' hi hi' => ?_
    · rw [grow, groups_append, List.length_append]
      exact Nat.le_add_right _ _
    · rw [grow, getElem?_groups_append hi] at hi'
      cases hi'
      exact .refl inner
  | first :: path, group => by
    refine .intro (List.prefix_refl _) ?_ fun index inner inner' hi hi' => ?_
    · exact Nat.le_of_eq (List.length_modify ..).symm
    · rw [getElem?_groups_grow hi] at hi'
      cases hi'
      split_ifs
      · exact extended_grow path inner
      · exact .refl inner

/-- A branch at one path, after something was appended to the branch at another one. -/
structure Kept (path at' : List Nat) (old new : Group) : Prop where
  extended : old.Extended new
  /-- Its groups themselves come first, unless the growth is inside one of them. -/
  groups : at' = path ∨ ¬ at' <+: path → old.groups <+: new.groups
  /-- Nothing changes away from the path. -/
  same : ¬ at' <+: path → new = old

theorem exists_kept_grow {added group branch : Group} {path at' : List Nat}
    (h : Leads at' group branch) :
    ∃ branch', Leads at' (grow added path group) branch' ∧ Kept path at' branch branch' := by
  by_cases hp : at' <+: path
  · obtain ⟨rest, rfl⟩ := hp
    refine ⟨_, leads_grow_append h, extended_grow rest branch, fun hor => ?_,
      fun hn => absurd (List.prefix_append _ _) hn⟩
    rcases hor with he | hn
    · obtain rfl : rest = [] := List.self_eq_append_right.mp he
      exact List.prefix_append _ _
    · exact absurd (List.prefix_append _ _) hn
  · exact ⟨branch, leads_grow_of_not_prefix hp h, .refl branch, fun _ => List.prefix_refl _,
      fun _ => rfl⟩

end Group

/-! ### Plans -/

/-- Something has been appended to the branch of a path, and to the lists of a plan. An input may
have got parameters if it had none. -/
structure Appends (path : List Nat) (old new : Plan) : Prop where
  trunk : ∃ added, new.trunk = Group.grow added path old.trunk
  parameters : old.parameters <+: new.parameters
  outputs : old.outputs <+: new.outputs
  facts : old.facts <+: new.facts
  inputs : new.DerivesFrom old.inputs
  used : List.Forall₂ (fun input derived : Input =>
    input.typeParameter.isSome = true → derived = input) old.inputs new.inputs
  /-- Inside of a group nothing is selected. -/
  hidden : path ≠ [] → new.outputs = old.outputs

variable {a b c old new plan plan' : Plan} {path path' : List Nat}

namespace Appends

theorem refl (plan : Plan) : plan.Appends path plan where
  trunk := ⟨Group.empty, (Group.grow_empty path plan.trunk).symm⟩
  parameters := List.prefix_refl _
  outputs := List.prefix_refl _
  facts := List.prefix_refl _
  inputs := derivesFrom_self plan
  used := List.forall₂_same.mpr fun _ _ _ => rfl
  hidden _ := rfl

theorem trans (h : a.Appends path b) (h' : b.Appends path c) : a.Appends path c where
  trunk := by
    obtain ⟨first, ht⟩ := h.trunk
    obtain ⟨second, ht'⟩ := h'.trunk
    exact ⟨first ++ second, by rw [ht', ht, Group.grow_grow]⟩
  parameters := h.parameters.trans h'.parameters
  outputs := h.outputs.trans h'.outputs
  facts := h.facts.trans h'.facts
  inputs := h.inputs.trans h'.inputs h'.parameters
  used := by
    refine forall₂_trans (fun first second third hu hu' hs => ?_) h.used h'.used
    obtain rfl := hu hs
    exact hu' hs
  hidden hp := (h'.hidden hp).trans (h.hidden hp)

theorem of_grow {added : Group} (ht : new.trunk = Group.grow added path old.trunk)
    (hi : new.inputs = old.inputs) (hp : old.parameters <+: new.parameters)
    (ho : new.outputs = old.outputs) (hf : old.facts <+: new.facts) : old.Appends path new where
  trunk := ⟨added, ht⟩
  parameters := hp
  outputs := ho ▸ List.prefix_refl _
  facts := hf
  inputs := DerivesFrom.congr (derivesFrom_self old) hi hp
  used := by
    rw [hi]
    exact List.forall₂_same.mpr fun _ _ _ => rfl
  hidden _ := ho

theorem addOutput (plan : Plan) (label type : String) (slot : Nat) :
    plan.Appends [] (plan.addOutput label type slot) :=
  { refl plan with
    outputs := List.prefix_append _ _
    hidden := fun h => absurd rfl h }

/-- What is appended inside a new group is appended to the branch around it, and nothing of it is
selected. -/
theorem of_addGroup {opened : Plan} (hg : plan.addGroup path = .ok (opened, path'))
    (h : opened.Appends path' new) : plan.Appends path new := by
  obtain ⟨ht, hi, hp, hf⟩ := addGroup_eq_ok hg
  obtain ⟨hne, ho⟩ := outputs_of_addGroup hg
  obtain ⟨added, htrunk⟩ := h.trunk
  have hout := (h.hidden hne).trans ho
  refine ⟨⟨_, htrunk.trans (ht added)⟩, hp ▸ h.parameters, hout ▸ List.prefix_refl _, hf ▸ h.facts,
    hi ▸ h.inputs, hi ▸ h.used, fun _ => hout⟩

theorem of_useInput {label : String} (h : plan.useInput label = some plan') :
    plan.Appends path plan' := by
  have hprolongs := prolongs_of_useInput h
  unfold useInput at h
  rcases hi : plan.input? label with _ | input <;> simp only [hi] at h
  · cases h
    exact .refl plan
  split_ifs at h with hnone
  · obtain ⟨position, used, id, hpos, hget, -, rfl⟩ := exists_of_addInputParameters h
    -- the parameters go to the input that was found without any
    obtain rfl : input = used := by
      rw [input?, List.find?_eq_bind_findIdx?_getElem?, hpos] at hi
      exact Option.some_inj.mp (hi.symm.trans hget)
    have hused : ∀ derived : Input, input.typeParameter.isSome = true → derived = input :=
      fun derived hs => by simp [Option.isNone_iff_eq_none.mp hnone] at hs
    refine { refl plan with
      parameters := List.prefix_append _ _
      inputs := hprolongs.inputs
      used := forall₂_set (r := Eq) ?_ (List.forall₂_same.mpr fun _ _ => rfl) hget ?_ }
    · exact fun _ _ he _ => he.symm
    · rintro _ rfl hs
      exact hused _ hs
  · cases h
    exact .refl plan

end Appends

theorem outputs_of_useInput {label : String} (h : plan.useInput label = some plan') :
    plan'.outputs = plan.outputs := by
  unfold useInput at h
  rcases hi : plan.input? label with _ | input <;> simp only [hi] at h
  · cases h
    rfl
  split_ifs at h
  · obtain ⟨position, used, id, -, -, -, rfl⟩ := exists_of_addInputParameters h
    rfl
  · cases h
    rfl

/-! ### Slots that a plan carries -/

/-- A slot is one of an input, or an end of an unconditional edge. -/
def Carries (plan : Plan) (slot : Nat) : Prop :=
  slot ∈ plan.inputs.map Input.slot ∨ slot ∈ ends plan.edges

theorem Appends.edges (h : old.Appends path new) : old.edges <+: new.edges := by
  obtain ⟨added, ht⟩ := h.trunk
  obtain ⟨hedges, -, -⟩ := ht ▸ Group.extended_grow path old.trunk
  exact hedges

theorem Appends.carries {slot : Nat} (h : old.Appends path new) (hc : old.Carries slot) :
    new.Carries slot := by
  refine hc.imp (fun hi => ?_) fun he => ?_
  · rwa [h.inputs.map_slot]
  · obtain ⟨more, hmore⟩ := h.edges
    rw [← hmore, ends_append]
    exact List.mem_append_left _ he

/-- Edges have been appended that lead from a slot to another one. In the unconditional branch that
is carried if the first one is. -/
structure Threads (path : List Nat) (old : Plan) (slot : Nat) (new : Plan) (last : Nat) :
    Prop where
  appends : old.Appends path new
  outputs : new.outputs = old.outputs
  carries : path = [] → old.Carries slot → new.Carries last

theorem Threads.refl (plan : Plan) (slot : Nat) : Threads path plan slot plan slot :=
  ⟨.refl plan, rfl, fun _ hc => hc⟩

theorem Threads.trans {slot middle last : Nat} (h : Threads path a slot b middle)
    (h' : Threads path b middle c last) : Threads path a slot c last :=
  ⟨h.appends.trans h'.appends, h'.outputs.trans h.outputs,
    fun hp hc => h'.carries hp (h.carries hp hc)⟩

/-- Further outputs are selected, all of them slots that the plan carries. -/
def SelectsCarried (old new : Plan) : Prop :=
  ∀ output ∈ new.outputs.drop old.outputs.length, new.Carries output.slot

theorem SelectsCarried.of_outputs_eq (h : new.outputs = old.outputs) : old.SelectsCarried new := by
  unfold SelectsCarried
  rw [h, List.drop_length]
  exact fun _ hm => absurd hm List.not_mem_nil

theorem SelectsCarried.addOutput {label type : String} {slot : Nat}
    (ho : new.outputs = old.outputs) (hc : new.Carries slot) :
    old.SelectsCarried (new.addOutput label type slot) := by
  intro output hm
  obtain rfl : output = ⟨label, type, slot⟩ := by
    have hadded : (new.addOutput label type slot).outputs = new.outputs ++ [⟨label, type, slot⟩] :=
      rfl
    rw [hadded, ho, List.drop_left] at hm
    exact List.mem_singleton.mp hm
  exact hc

theorem SelectsCarried.trans (h : a.SelectsCarried b) (h' : b.SelectsCarried c)
    (hb : a.Appends path b) (hc : b.Appends path c) : a.SelectsCarried c := by
  intro output hm
  obtain ⟨more, hmore⟩ := hb.outputs
  obtain ⟨more', hmore'⟩ := hc.outputs
  rw [← hmore', ← hmore, List.append_assoc, List.drop_left, List.mem_append] at hm
  rcases hm with hm | hm
  · exact hc.carries (h output (by rwa [← hmore, List.drop_left]))
  · exact h' output (by rwa [← hmore', List.drop_left])

end Plan

/-! ### Paths -/

variable {schema : Schema} {stem : String} {path : List Nat}

theorem outputs_nextSlot {α : Type} (plan : Plan) (type : String) (unknown : Option Plan.Fact)
    (rest : List α) : (nextSlot plan type unknown rest).1.outputs = plan.outputs ∧
      plan.facts <+: (nextSlot plan type unknown rest).1.facts := by
  unfold nextSlot
  split
  · exact ⟨rfl, List.prefix_refl _⟩
  · exact ⟨rfl, List.prefix_append _ _⟩

/-- The edge of a role goes behind what a plan has, and leads to either of its ends. -/
theorem threads_of_edge {plan edged : Plan} {α : Type} {id : Int} {type : String}
    {unknown : Option Plan.Fact} {rest : List α} {predecessor successor role slot last : Nat}
    (h : (nextSlot (plan.addParameter (.integer id)).1 type unknown rest).1.addEdge predecessor
      successor role path = .ok edged) (hl : last = predecessor ∨ last = successor) :
    Plan.Threads path plan slot edged last := by
  obtain ⟨ht, hi, hp, hf⟩ := Plan.addEdge_eq_ok h
  have ho := Plan.outputs_of_addEdge h
  obtain ⟨hinputs, hparameters, htrunk⟩ :=
    nextSlot_eq (plan.addParameter (.integer id)).1 type unknown rest
  obtain ⟨houtputs, hfacts⟩ :=
    outputs_nextSlot (plan.addParameter (.integer id)).1 type unknown rest
  rw [htrunk] at ht
  rw [hinputs] at hi
  rw [hparameters] at hp
  refine ⟨.of_grow ht hi (hp ▸ List.prefix_append _ _) (ho.trans houtputs) (hf ▸ hfacts),
    ho.trans houtputs, ?_⟩
  rintro rfl -
  refine Or.inr ?_
  rw [show edged.edges = edged.trunk.edges from rfl, ht, Plan.Group.grow, Plan.Group.edges_append,
    Plan.ends_append]
  exact List.mem_append_right _ (by simpa [Plan.ends, Plan.Edge.slots] using hl)

theorem threads_of_ascend {unknown : Option Plan.Fact} : ∀ {roles : List Role} {plan new : Plan}
    {slot last : Nat} {type : String},
    ascend schema path unknown plan slot type roles = .ok (some (new, last)) →
      Plan.Threads path plan slot new last
  | [], plan, _, slot, _, _, h => by
    cases h
    exact .refl plan slot
  | role :: rest, plan, new, slot, last, type, h => by
    rw [ascend] at h
    rcases hr : schema.roleOf type role.name with _ | id <;> simp only [hr] at h
    · cases h
    · obtain ⟨edged, hadd, hrest⟩ := Except.bind_eq_ok_iff.mp h
      exact (threads_of_edge hadd (Or.inl rfl)).trans (threads_of_ascend hrest)

theorem threads_of_descend {unknown : Option Plan.Fact} : ∀ {ids : List (Int × String)}
    {plan new : Plan} {slot last : Nat},
    descend path unknown plan slot ids = .ok (new, last) → Plan.Threads path plan slot new last
  | [], plan, _, slot, _, h => by
    cases h
    exact .refl plan slot
  | (id, type) :: rest, plan, new, slot, last, h => by
    rw [descend] at h
    obtain ⟨edged, hadd, hrest⟩ := Except.bind_eq_ok_iff.mp h
    exact (threads_of_edge hadd (Or.inr rfl)).trans (threads_of_descend hrest)

/-! ### Steps -/

namespace Joined

/-- Every label is bound to a slot that the plan carries. -/
def BindsCarried (joined : Joined) : Prop :=
  ∀ label fact, joined.bindings.lookup label = some fact → joined.plan.Carries fact.slot

variable {a b c : Joined}

theorem BindsCarried.of_appends (ha : a.BindsCarried) {plan : Plan} (h : a.plan.Appends path plan) :
    BindsCarried ⟨plan, a.bindings⟩ :=
  fun label fact hl => h.carries (ha label fact hl)

/-- A plan is appended to. In the unconditional branch, labels stay bound to carried slots, and what
is selected is carried. -/
structure Appends (path : List Nat) (old new : Joined) : Prop where
  plan : old.plan.Appends path new.plan
  binds : path = [] → old.BindsCarried → new.BindsCarried
  selects : path = [] → old.BindsCarried → old.plan.SelectsCarried new.plan

namespace Appends

theorem refl (joined : Joined) : joined.Appends path joined :=
  ⟨.refl joined.plan, fun _ ha => ha, fun _ _ => .of_outputs_eq rfl⟩

theorem trans (h : a.Appends path b) (h' : b.Appends path c) : a.Appends path c where
  plan := h.plan.trans h'.plan
  binds hp ha := h'.binds hp (h.binds hp ha)
  selects hp ha := (h.selects hp ha).trans (h'.selects hp (h.binds hp ha)) h.plan h'.plan

theorem forget (h : a.Appends path b) : a.Appends path ⟨b.plan, a.bindings⟩ :=
  ⟨h.plan, fun _ ha => ha.of_appends h.plan, h.selects⟩

theorem group {path' : List Nat} {opened : Plan} (hg : a.plan.addGroup path = .ok (opened, path'))
    (h : Appends path' ⟨opened, a.bindings⟩ b) : a.Appends path ⟨b.plan, a.bindings⟩ := by
  have hplan := Plan.Appends.of_addGroup hg h.plan
  obtain ⟨hne, ho⟩ := Plan.outputs_of_addGroup hg
  exact ⟨hplan, fun _ ha => ha.of_appends hplan,
    fun _ _ => .of_outputs_eq ((h.plan.hidden hne).trans ho)⟩

end Appends

end Joined

/-- A path condition appends to a plan. In the unconditional branch, the slot that it binds and
selects is carried. -/
theorem PathCondition.appends_of_join {unknown : Label} {joined new : Joined}
    {condition : PathCondition} {branch : Branch}
    (h : condition.join schema stem path unknown joined = .ok branch)
    (hl : branch.last = some new) : joined.Appends path new := by
  obtain ⟨used, right, middle, slot, roles, final, last, huse, hright, hup, -, hdown, hnew⟩ :=
    exists_of_join h hl
  have hused : joined.plan.Appends path used := .of_useInput huse
  have hthreads := (threads_of_ascend hup).trans (threads_of_descend hdown)
  have hfinal := hused.trans hthreads.appends
  have hsame : final.outputs = joined.plan.outputs :=
    hthreads.outputs.trans (Plan.outputs_of_useInput huse)
  have hlast : path = [] → joined.BindsCarried → final.Carries last := fun hp ha =>
    hthreads.carries hp (hused.carries (ha _ right hright))
  rcases hnew with ⟨-, rfl⟩ | ⟨-, rfl⟩
  · exact ⟨hfinal, fun _ ha => ha.of_appends hfinal, fun _ _ => .of_outputs_eq hsame⟩
  · rcases path with _ | ⟨index, path⟩
    · refine ⟨hfinal.trans (.addOutput ..), fun _ ha label fact hlabel => ?_,
        fun hp ha => .addOutput hsame (hlast hp ha)⟩
      rw [List.lookup_cons] at hlabel
      split at hlabel
      · cases hlabel
        exact hlast rfl ha
      · exact hfinal.carries (ha label fact hlabel)
    · exact ⟨hfinal, fun hp => absurd hp (List.cons_ne_nil _ _),
        fun hp => absurd hp (List.cons_ne_nil _ _)⟩

/-- **A compilation appends to the plan from which it goes on.** -/
theorem Joined.Proceeds.appends {a b : Joined} (h : a.Proceeds schema path b) :
    a.Appends path b := by
  induction h with
  | refl joined => exact .refl joined
  | trans _ _ ih ih' => exact ih.trans ih'
  | join hjoin hlast => exact PathCondition.appends_of_join hjoin hlast
  | forget _ ih => exact ih.forget
  | group hgroup _ ih => exact ih.group hgroup

/-! ### Extended plans -/

/-- Nothing that a compilation found in its plan is lost or changed in a later plan, apart from what
was appended in the branch of a path. -/
structure Joined.ExtendedBy (path : List Nat) (old : Joined) (new : Plan) : Prop where
  parameters : old.plan.parameters <+: new.parameters
  outputs : old.plan.outputs <+: new.outputs
  facts : old.plan.facts <+: new.facts
  /-- The unconditional edges come first. -/
  edges : old.plan.edges <+: new.edges
  /-- Every group is still at its path. -/
  groups : ∀ (at' : List Nat) (group : Plan.Group), Plan.Group.Leads at' old.plan.trunk group →
    ∃ group', Plan.Group.Leads at' new.trunk group' ∧ Plan.Group.Kept path at' group group'
  inputs : new.DerivesFrom old.plan.inputs
  /-- The inputs that had parameters have kept them. -/
  used : List.Forall₂ (fun input derived : Plan.Input =>
    input.typeParameter.isSome = true → derived = input) old.plan.inputs new.inputs
  hidden : path ≠ [] → new.outputs = old.plan.outputs
  carried : path = [] → old.BindsCarried → old.plan.SelectsCarried new

theorem Joined.Appends.extendedBy {old new : Joined} (h : old.Appends path new) :
    old.ExtendedBy path new.plan where
  parameters := h.plan.parameters
  outputs := h.plan.outputs
  facts := h.plan.facts
  edges := h.plan.edges
  groups at' group hl := by
    obtain ⟨added, ht⟩ := h.plan.trunk
    rw [ht]
    exact Plan.Group.exists_kept_grow hl
  inputs := h.plan.inputs
  used := h.plan.used
  hidden := h.plan.hidden
  carried := h.selects

/-- **Joining matches only ever extends a plan**: every plan that it emits on the way, and the one
that it ends with, extends the plan from which it started in the branch of a path. -/
theorem Match.extended_of_joinAll {block : List Match} {joined : Joined} {branch : Branch}
    {new : Plan} (hb : joined.plan.HasBranch path)
    (h : Match.joinAll schema stem path joined block = .ok branch)
    (hn : new ∈ branch.completed ++ (branch.last.map Joined.plan).toList) :
    joined.ExtendedBy path new := by
  have hproceeds := (Match.ends_joinAll block hb).ok branch h
  rcases List.mem_append.mp hn with hn | hn
  · obtain ⟨bindings, hp⟩ := hproceeds.completed new hn
    exact hp.appends.extendedBy
  · obtain ⟨last, hl, rfl⟩ := Option.map_eq_some_iff.mp (Option.mem_toList.mp hn)
    exact (hproceeds.last last hl).appends.extendedBy

/-- A compilation starts from labels that are bound to the slots of inputs, if there is a start fact
for every given label. -/
theorem Specification.bindsCarried_initial {spec : Specification} {start : List FactReference}
    (hlen : start.length = spec.given.length) : (spec.initial schema start).BindsCarried := by
  intro label fact hl
  obtain ⟨i, given, hget, hslot⟩ := mem_slots_initial (Joined.mem_slots_of_lookup hl)
  obtain ⟨input, hi, -, hs⟩ := exists_input hlen hget
  exact Or.inl (List.mem_map.mpr ⟨input, hi, hs.trans hslot.symm⟩)

/-- The compilation of projects that are not deleted, which completes the plan of those that are. -/
theorem Match.extended_of_joinAll_withoutDeletion :
    let spec := Specification.projectsWhere false [Specification.deletion]
    let start := spec.initial Schema.single [⟨"Root", "r"⟩]
    start.plan.HasBranch [] ∧ start.BindsCarried ∧
      ∃ branch last, Match.joinAll Schema.single "" [] start spec.body = .ok branch ∧
        branch.last = some last ∧ branch.completed.length = 1 ∧ last.plan.outputs.length = 1 ∧
          (∀ new ∈ branch.completed, start.ExtendedBy [] new) ∧
          ∀ output ∈ last.plan.outputs, last.plan.Carries output.slot := by
  intro spec start
  have hbinds : start.BindsCarried := Specification.bindsCarried_initial rfl
  have hb := Plan.hasBranch_nil start.plan
  have hjoin : (do
      let branch ← Match.joinAll Schema.single "" [] start spec.body
      return (branch.completed.length, branch.last.map fun last : Joined =>
        last.plan.outputs.length)) = .ok (1, some 1) := by decide +kernel
  obtain ⟨branch, hj, hcounts⟩ := Except.bind_eq_ok_iff.mp hjoin
  obtain ⟨hcompleted, hlast⟩ := Prod.mk.inj (Except.ok.inj hcounts)
  obtain ⟨last, hl, hcount⟩ := Option.map_eq_some_iff.mp hlast
  have hends : last.plan ∈ branch.completed ++ (branch.last.map Joined.plan).toList := by simp [hl]
  refine ⟨hb, hbinds, branch, last, hj, hl, hcompleted, hcount, fun new hn => ?_, ?_⟩
  · exact Match.extended_of_joinAll hb hj (List.mem_append_left _ hn)
  · exact (Match.extended_of_joinAll hb hj hends).carried rfl hbinds

end FactGraph
