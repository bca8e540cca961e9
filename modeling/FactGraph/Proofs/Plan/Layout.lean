import FactGraph.Proofs.Plan.Linked
import FactGraph.Proofs.Plan.Runs

/-! # The layout of compiled plans

A step of a compilation appends edges that open their slots: with every new edge comes one new slot,
which takes the number behind it. What is selected is an input that has its parameters, or a slot
that an edge of the unconditional branch joins.

* `Joined.Reaches.lays`: what a run appends is laid out so, by induction on its steps.
* `Specification.layout_of_mem_plans`: so is every plan of a well-formed specification. -/

namespace FactGraph

variable {path path' : List Nat} {inputs : List Plan.Input}

/-! ### Chains -/

namespace Plan.Chained

variable {old new : Plan} {slot last : Nat} {edges : List Edge}

theorem grows (h : Chained path old slot new last edges) (hset : old.Settles slot)
    (hin : ∀ input ∈ old.inputs, input.slot ≤ old.facts.length) :
    Grows path [slot] old new ⟨edges, []⟩ ∧ (last = slot ∨ last ∈ ends edges) := by
  induction h with
  | nil => exact ⟨Grows.refl _, Or.inl rfl⟩
  | cons joins _ _ _ ih =>
    obtain ⟨hset', hin'⟩ := joins.settles hin
    obtain ⟨hgrows, harrives⟩ := ih hset' hin'
    refine ⟨(joins.grows hset hin).trans hgrows fun s hs => ?_, Or.inr ?_⟩
    · rw [List.mem_singleton] at hs
      exact Or.inr (joins.mem_slots.mpr (Or.inr hs))
    · rcases harrives with rfl | hm
      · exact List.mem_append_left _ ((joins.slots _).mpr (Or.inr rfl))
      · exact List.mem_append_right _ hm

theorem outputs_eq (h : Chained path old slot new last edges) : new.outputs = old.outputs := by
  induction h with
  | nil => rfl
  | cons _ _ outputs _ ih => exact ih.trans outputs

theorem facts_length (h : Chained path old slot new last edges) :
    new.facts.length = old.facts.length + edges.length := by
  induction h with
  | nil => rfl
  | cons joins _ _ _ ih =>
    rw [ih, joins.facts, List.length_cons]
    omega

theorem map_index (h : Chained path old slot new last edges) (hb : old.HasBranch path) :
    edges.map Edge.index = List.range' (old.edgeCount + 1) edges.length := by
  induction h with
  | nil => rfl
  | cons joins index _ _ ih =>
    have hcount := edgeCount_of_grow joins.trunk hb
    rw [List.map_cons, ih (hasBranch_of_grow joins.trunk hb), index, hcount, List.length_cons,
      List.range'_succ]
    rfl

/-- **The edges of a chain open their slots.** -/
theorem allOpen {count : Nat} (h : Chained path old slot new last edges) (hb : old.HasBranch path)
    (hfacts : old.facts.length = count + old.edgeCount) {seen : List Nat} (hslot : slot ∈ seen)
    (hseen : ∀ s ∈ seen, s ≤ old.facts.length) : AllOpen count seen edges := by
  induction h generalizing seen with
  | nil => trivial
  | @cons old middle new slot last role edge edges joins index _ _ ih =>
    have hcount : middle.edgeCount = old.edgeCount + 1 := edgeCount_of_grow joins.trunk hb
    have hown : count + edge.index = old.facts.length + 1 := by omega
    have hfresh : old.facts.length + 1 ∉ seen := fun hm => by
      have := hseen _ hm
      omega
    refine ⟨?_, ih (hasBranch_of_grow joins.trunk hb) (by rw [joins.facts, hcount]; omega)
      (List.mem_append_right _ ((joins.slots _).mpr (Or.inr rfl))) fun s hs => ?_⟩
    · -- one end is the slot that the chain has come to, the other one is new
      have hslots := joins.slots
      simp only [Edge.slots, List.mem_cons, List.not_mem_nil, or_false] at hslots
      have hp := (hslots edge.predecessor).mp (Or.inl rfl)
      have hq := (hslots edge.successor).mp (Or.inr rfl)
      have hs := (hslots slot).mpr (Or.inl rfl)
      have hn := (hslots (old.facts.length + 1)).mpr (Or.inr rfl)
      have hne : slot ≠ old.facts.length + 1 := fun he => hfresh (he ▸ hslot)
      obtain ⟨he, he'⟩ | ⟨he, he'⟩ : edge.predecessor = slot ∧
          edge.successor = old.facts.length + 1 ∨ edge.predecessor = old.facts.length + 1 ∧
            edge.successor = slot := by omega
      · exact .down (he ▸ hslot) (he'.trans hown.symm) (he' ▸ hfresh)
      · exact .up (he' ▸ hslot) (he.trans hown.symm) (he ▸ hfresh)
    · rw [joins.facts]
      rcases List.mem_append.mp hs with hs | hs
      · exact Nat.le_succ_of_le (hseen s hs)
      · rcases (joins.slots s).mp hs with rfl | rfl
        · exact Nat.le_succ_of_le (hseen _ hslot)
        · exact Nat.le_refl _

end Plan.Chained

/-! ### Runs -/

namespace Joined

variable {a b c old : Joined} {first second added : Plan.Group} {new : Plan} {count : Nat}

/-- The appended part is linked, its edges take the next numbers and its slots the next slots, and
what is selected is joined. -/
structure Lays (count : Nat) (path : List Nat) (old : Joined) (new : Plan) (added : Plan.Group) :
    Prop where
  facts : new.facts.length = old.plan.facts.length + added.edgeCount
  nodup : added.indices.Nodup
  indices : ∀ i ∈ added.indices, old.plan.edgeCount < i ∧ i ≤ new.edgeCount
  linked : ∀ seen, old.Sees seen → added.Linked count seen
  selects : ∀ output ∈ new.outputs, output ∈ old.plan.outputs ∨ path = [] ∧
    (output.slot ∈ old.slots ∨ output.slot ∈ Plan.ends added.edges) ∧ new.Settles output.slot

/-- A branch from which a compilation goes on: there is one slot for every input and every edge. -/
structure Ready (inputs : List Plan.Input) (path : List Nat) (joined : Joined) : Prop where
  sound : joined.Sound inputs
  branch : joined.plan.HasBranch path
  facts : joined.plan.facts.length = inputs.length + joined.plan.edgeCount

theorem Lays.refl (joined : Joined) :
    joined.Lays count path joined.plan Plan.Group.empty where
  facts := rfl
  nodup := List.nodup_nil
  indices _ hi := absurd hi List.not_mem_nil
  linked _ _ := Plan.Group.linked_empty
  selects _ ho := Or.inl ho

theorem Ready.of_lays (hr : a.Ready inputs path) (hg : a.Grows path b added)
    (h : a.Lays inputs.length path b.plan added) : b.Ready inputs path where
  sound := hr.sound.of_grows hg
  branch := Plan.hasBranch_of_grow hg.plan.trunk hr.branch
  facts := by
    rw [h.facts, hr.facts, Plan.edgeCount_of_grow hg.plan.trunk hr.branch, Nat.add_assoc]

theorem Lays.trans (hb : a.plan.HasBranch path) (hg : a.Grows path b first)
    (hg' : b.Grows path c second) (h : a.Lays count path b.plan first)
    (h' : b.Lays count path c.plan second) : a.Lays count path c.plan (first ++ second) where
  facts := by rw [h'.facts, h.facts, Plan.Group.edgeCount_append, Nat.add_assoc]
  nodup := by
    rw [(Plan.Group.indices_append_perm first second).nodup_iff, List.nodup_append]
    refine ⟨h.nodup, h'.nodup, fun i hi j hj => ?_⟩
    have := (h.indices i hi).2
    have := (h'.indices j hj).1
    omega
  indices i hi := by
    have hmiddle := Plan.edgeCount_of_grow hg.plan.trunk hb
    have hlast := Plan.edgeCount_of_grow hg'.plan.trunk
      (Plan.hasBranch_of_grow hg.plan.trunk hb)
    rw [(Plan.Group.indices_append_perm first second).mem_iff, List.mem_append] at hi
    rcases hi with hi | hi
    · have := h.indices i hi
      omega
    · have := h'.indices i hi
      omega
  linked seen hs := (h.linked seen hs).append
    (fun _ hfirst hsecond => hg.mem_of_mem_ends hg' hs hfirst hsecond)
    (h'.linked _ (hs.append hg))
  selects output ho := by
    rw [Plan.Group.edges_append, Plan.ends_append, List.mem_append]
    rcases h'.selects output ho with ho | ⟨hp, hs, hset⟩
    · refine (h.selects output ho).imp_right ?_
      rintro ⟨hp, hs, hset⟩
      exact ⟨hp, hs.imp_right Or.inl, hg'.plan.settles _ hset⟩
    · refine Or.inr ⟨hp, ?_, hset⟩
      rcases hs with hs | hs
      · exact (hg.slots _ hs).imp_right Or.inl
      · exact Or.inr (Or.inr hs)

theorem Lays.of_addGroup {opened : Plan} (hb : a.plan.HasBranch path)
    (hadd : a.plan.addGroup path = .ok (opened, path'))
    (h : Lays count path' ⟨opened, a.bindings⟩ new added) :
    a.Lays count path new ⟨[], [added]⟩ := by
  obtain ⟨-, hcount⟩ := Plan.edgeCount_of_addGroup hadd hb
  obtain ⟨-, -, -, hfacts⟩ := Plan.addGroup_eq_ok hadd
  obtain ⟨hne, houtputs⟩ := Plan.outputs_of_addGroup hadd
  have hindices : (⟨[], [added]⟩ : Plan.Group).indices = added.indices := by
    simp [Plan.Group.indices_eq, Plan.Group.indicesAll]
  refine ⟨?_, hindices ▸ h.nodup, fun i hi => ?_, fun seen hs => ?_, fun output ho => ?_⟩
  · rw [h.facts, hfacts, Plan.Group.edgeCount_group]
  · rw [← hcount]
    exact h.indices i (hindices ▸ hi)
  · have hinner := h.linked seen ⟨hs.slots, fun s hm => hfacts ▸ hs.le s hm⟩
    refine Plan.Group.linked_iff.mpr ⟨trivial, ?_, trivial⟩
    rwa [Plan.ends, List.flatMap_nil, List.append_nil]
  · rcases h.selects output ho with ho | ⟨hp, -⟩
    · exact Or.inl (houtputs ▸ ho)
    · exact absurd hp hne

/-- An input that is used lays out nothing, and the label that a path starts from is settled. -/
theorem Ready.lays_use {used : Plan} {right : Plan.Fact} {label : String}
    (hd : Plan.Distinct inputs) (hr : a.Ready inputs path)
    (huse : a.plan.useInput label = some used) (hright : a.bindings.lookup label = some right) :
    a.Grows path ⟨used, a.bindings⟩ Plan.Group.empty ∧
      a.Lays count path used Plan.Group.empty ∧ used.Settles right.slot := by
  obtain ⟨hfacts, houtputs, hused, hsettled⟩ := Plan.grows_of_useInput hd hr.sound.derives huse
  refine ⟨⟨hused path a.slots, fun _ _ hl => hl, fun _ hs => Or.inl hs, fun _ _ hl => Or.inl hl⟩,
    ⟨by rw [hfacts]; rfl, List.nodup_nil, fun _ hi => absurd hi List.not_mem_nil,
      fun _ _ => Plan.Group.linked_empty, fun output ho => Or.inl (houtputs ▸ ho)⟩, ?_⟩
  rcases hr.sound.settled _ _ hright with ⟨input, hi, hl, he⟩ | hset
  · exact he ▸ hsettled input hi hl
  · exact (hused path []).settles _ hset

theorem Ready.lays_chain {right : Plan.Fact} {last : Nat} {edges : List Plan.Edge} {label : String}
    (hr : a.Ready inputs path) (hright : a.bindings.lookup label = some right)
    (hset : a.plan.Settles right.slot)
    (hc : Plan.Chained path a.plan right.slot new last edges) :
    Plan.Grows path a.slots a.plan new ⟨edges, []⟩ ∧ a.Lays inputs.length path new ⟨edges, []⟩ ∧
      (last ∈ a.slots ∨ last ∈ Plan.ends edges) ∧ new.Settles last := by
  have hmem := mem_slots_of_lookup hright
  obtain ⟨hgrows, harrives⟩ := hc.grows hset
    (Plan.slot_le_of_derivesFrom hr.sound.derives hr.sound.inputs_le)
  have hwhole : Plan.Grows path a.slots a.plan new ⟨edges, []⟩ :=
    (Plan.Grows.refl a.plan).trans hgrows fun s hs => Or.inl (List.mem_singleton.mp hs ▸ hmem)
  have hcount : new.edgeCount = a.plan.edgeCount + edges.length :=
    Plan.edgeCount_of_grow hgrows.trunk hr.branch
  have hindices : (⟨edges, []⟩ : Plan.Group).indices =
      List.range' (a.plan.edgeCount + 1) edges.length := by
    rw [← hc.map_index hr.branch]
    simp [Plan.Group.indices_eq, Plan.Group.indicesAll]
  refine ⟨hwhole, ⟨hc.facts_length, hindices ▸ List.nodup_range', fun i hi => ?_, fun seen hs => ?_,
    fun output ho => Or.inl (hc.outputs_eq ▸ ho)⟩, ?_⟩
  · rw [hindices, List.mem_range'_1] at hi
    omega
  · exact Plan.Group.linked_iff.mpr
      ⟨hc.allOpen hr.branch hr.facts (hs.slots hmem) hs.le, trivial⟩
  · rcases harrives with rfl | hm
    · exact ⟨Or.inl hmem, hwhole.settles _ hset⟩
    · exact ⟨Or.inr hm, hwhole.settled _ (Plan.Group.mem_slots_of_mem_ends hm)⟩

theorem Lays.addOutput (h : a.Lays count [] new added) {label type : String} {slot : Nat}
    (hs : slot ∈ a.slots ∨ slot ∈ Plan.ends added.edges) (hset : new.Settles slot) :
    a.Lays count [] (new.addOutput label type slot) added := by
  refine ⟨h.facts, h.nodup, h.indices, h.linked, fun output ho => ?_⟩
  rcases List.mem_append.mp ho with ho | ho
  · exact h.selects output ho
  · rw [List.mem_singleton.mp ho]
    exact Or.inr ⟨rfl, hs, hset⟩

theorem Ready.lays_bind {used : Plan} {right : Plan.Fact} {last : Nat} {edges : List Plan.Edge}
    {label name : String} {unknown : Label} (hd : Plan.Distinct inputs) (hr : a.Ready inputs path)
    (huse : a.plan.useInput label = some used) (hright : a.bindings.lookup label = some right)
    (hfresh : a.bindings.lookup unknown.name = none)
    (hc : Plan.Chained path used right.slot new last edges) :
    let final := if path.isEmpty then new.addOutput name unknown.type last else new
    a.Grows path ⟨final, (unknown.name, ⟨last, unknown.type⟩) :: a.bindings⟩ ⟨edges, []⟩ ∧
      a.Lays inputs.length path final ⟨edges, []⟩ := by
  obtain ⟨hg, hl, hset⟩ := hr.lays_use hd huse hright
  obtain ⟨hgrows, hlays, hjoined, hlast⟩ := (hr.of_lays hg hl).lays_chain hright hset hc
  have hbind : Grows path ⟨used, a.bindings⟩
      ⟨new, (unknown.name, ⟨last, unknown.type⟩) :: a.bindings⟩ ⟨edges, []⟩ :=
    grows_bind hgrows hfresh hjoined hlast
  have hfirst := hg.trans hbind
  have hwhole := hl.trans hr.branch hg hbind hlays
  rw [Plan.Group.empty_append] at hfirst hwhole
  by_cases hp : path = []
  · subst hp
    exact ⟨grows_bind (hfirst.plan.addOutput _ _ _) hfresh hjoined hlast,
      hwhole.addOutput hjoined hlast⟩
  · simp only [List.isEmpty_iff, hp, if_false]
    exact ⟨hfirst, hwhole⟩

/-- **What a run appends is laid out behind the plan that it starts from.** -/
theorem Reaches.lays (hd : Plan.Distinct inputs) (h : Reaches path a b added)
    (hr : a.Ready inputs path) :
    a.Grows path b added ∧ a.Lays inputs.length path b.plan added := by
  induction h with
  | refl joined => exact ⟨Grows.refl joined, Lays.refl joined⟩
  | trans _ _ ih ih' =>
    obtain ⟨hg, hl⟩ := ih hr
    obtain ⟨hg', hl'⟩ := ih' (hr.of_lays hg hl)
    exact ⟨hg.trans hg', hl.trans hr.branch hg hg' hl'⟩
  | bind name unknown use start fresh chained => exact hr.lays_bind hd use start fresh chained
  | forget _ ih =>
    obtain ⟨hg, hl⟩ := ih hr
    exact ⟨hg.forget, hl⟩
  | group hadd _ ih =>
    obtain ⟨hbranch, hcount⟩ := Plan.edgeCount_of_addGroup hadd hr.branch
    obtain ⟨-, -, -, hfacts⟩ := Plan.addGroup_eq_ok hadd
    obtain ⟨hg, hl⟩ := ih ⟨hr.sound.of_addGroup hadd, hbranch, by rw [hfacts, hr.facts, hcount]⟩
    exact ⟨hg.of_addGroup hadd, hl.of_addGroup hr.branch hadd⟩

end Joined

/-! ### Whole plans -/

/-- **The layout of a plan.** Its edges are linked from the slots of the inputs on and have numbers
of their own; what it mentions and what it selects is settled, and what it selects is joined. -/
structure Plan.Layout (inputs : List Plan.Input) (plan : Plan) : Prop where
  derives : plan.DerivesFrom inputs
  linked : plan.trunk.Linked inputs.length (inputs.map Plan.Input.slot)
  nodup : plan.trunk.indices.Nodup
  positive : ∀ i ∈ plan.trunk.indices, 0 < i
  settled : ∀ s ∈ plan.trunk.slots, plan.Settles s
  selects : ∀ output ∈ plan.outputs, (output.slot ∈ inputs.map Plan.Input.slot ∨
    output.slot ∈ Plan.ends plan.edges) ∧ plan.Settles output.slot

namespace Specification

variable {spec : Specification} {schema : Schema} {start : List FactReference}

theorem ready_initial (hnames : (spec.given.map Label.name).Nodup)
    (hlen : start.length = spec.given.length) :
    (spec.initial schema start).Ready (spec.inputs schema start) [] where
  sound := sound_initial hnames hlen
  branch := Plan.hasBranch_nil _
  facts := by
    simp [initial, Plan.start, givenFacts, inputs, Plan.edgeCount, Plan.Group.edgeCountAll, hlen]

/-- **Every plan of a well-formed specification is laid out**, and all its groups have edges if the
specification is direct. -/
theorem layout_of_mem_plans (hc : spec.check = .ok ()) {plans : List Plan}
    (h : spec.plans schema start = .ok plans) : ∀ plan ∈ plans,
      plan.Layout (spec.inputs schema start) ∧
        (spec.direct = true → Plan.Group.AllSolid plan.groups) := by
  intro plan hm
  obtain ⟨bindings, added, hr, hsolid⟩ := arrivesAt_of_mem_plans hc h plan hm
  obtain ⟨given, hgiven, -⟩ := Except.bind_eq_ok_iff.mp hc
  obtain ⟨-, hnames, -⟩ := Scope.declareAll_eq_ok hgiven
  obtain ⟨hlen, -⟩ := checkStart_eq_ok (Except.bind_unit_eq_ok_iff.mp h).1
  have hready := @ready_initial spec schema start hnames hlen
  obtain ⟨hg, hl⟩ := hr.lays (distinct_inputs hnames hlen) hready
  have htrunk : plan.trunk = added := hg.plan.trunk.trans (Plan.Group.empty_append added)
  have hsees := @sees_initial spec schema start hlen
  subst htrunk
  refine ⟨⟨hg.plan.derives _ hready.sound.derives, hl.linked _ hsees, hl.nodup,
    fun i hi => Nat.zero_lt_of_lt (hl.indices i hi).1, hg.plan.settled, fun output ho => ?_⟩,
    hsolid⟩
  rcases hl.selects output ho with ho | ⟨-, hs, hset⟩
  · cases ho
  · exact ⟨hs.imp_left fun hs => hsees.slots hs, hset⟩

end Specification

end FactGraph
