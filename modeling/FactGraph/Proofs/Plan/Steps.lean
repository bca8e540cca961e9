import FactGraph.Proofs.Plan.Bound
import FactGraph.Proofs.Plan.Linked
import FactGraph.Proofs.Plan.Parameters

/-! # Steps of any compilation

Matches may be joined whether or not they are well-formed: path conditions may go on from labels
that are bound twice, and may close cycles onto an unknown that is bound already. Even so, few kinds
of steps lead from one plan to the next, and whatever is in a plan stays there. `Joined.Proceeds` is
made of these steps, and says nothing of the slots that they connect.

* `Joined.Proceeds.prolongs`: branches, edges, parameters, inputs and labels are kept.
* `Match.ends_joinAll`: a join takes such steps, or meets a label that is not bound.
* `Specification.ends_plans`: the same of all plans of a specification. -/

namespace FactGraph

/-! ### Prolonged plans -/

namespace Plan

/-- A plan has all branches, unconditional edges and parameters of an older one, and the inputs of
it, of which some may have got parameters. -/
structure Prolongs (old new : Plan) : Prop where
  branches : ∀ path, old.HasBranch path → new.HasBranch path
  edges : old.edges <+: new.edges
  parameters : old.parameters <+: new.parameters
  inputs : new.DerivesFrom old.inputs

variable {a b c old new plan plan' : Plan} {path path' : List Nat}

theorem derivesFrom_self (plan : Plan) : plan.DerivesFrom plan.inputs :=
  List.forall₂_same.mpr fun _ _ => Or.inl rfl

theorem Input.DerivesFrom.trans {parameters : List Parameter} {a b c : Input}
    (h : a.DerivesFrom parameters b) (h' : b.DerivesFrom parameters c) :
    a.DerivesFrom parameters c := by
  obtain rfl | ⟨id, position, position', hid, hp, hp', rfl⟩ := h'
  · exact h
  · refine Or.inr ⟨id, position, position', h.typeId_eq ▸ hid, hp, ?_, ?_⟩
    · obtain rfl | ⟨_, _, _, _, _, _, rfl⟩ := h <;> exact hp'
    · obtain rfl | ⟨_, _, _, _, _, _, rfl⟩ := h <;> rfl

theorem forall₂_trans {α β γ : Type} {r : α → β → Prop} {s : β → γ → Prop} {t : α → γ → Prop}
    (ht : ∀ a b c, r a b → s b c → t a c) : ∀ {as : List α} {bs : List β} {cs : List γ},
      List.Forall₂ r as bs → List.Forall₂ s bs cs → List.Forall₂ t as cs
  | _, _, _, .nil, .nil => .nil
  | _, _, _, .cons h hs, .cons h' hs' => .cons (ht _ _ _ h h') (forall₂_trans ht hs hs')

/-- What derives from the inputs of an older plan derives from what these derive from. -/
theorem DerivesFrom.trans {inputs : List Input} (h : old.DerivesFrom inputs)
    (h' : new.DerivesFrom old.inputs) (hp : old.parameters <+: new.parameters) :
    new.DerivesFrom inputs :=
  forall₂_trans (fun _ _ _ hd hd' => (hd.mono hp).trans hd') h h'

namespace Prolongs

theorem refl (plan : Plan) : plan.Prolongs plan :=
  ⟨fun _ h => h, List.prefix_refl _, List.prefix_refl _, derivesFrom_self plan⟩

theorem trans (h : a.Prolongs b) (h' : b.Prolongs c) : a.Prolongs c :=
  ⟨fun path hb => h'.branches path (h.branches path hb), h.edges.trans h'.edges,
    h.parameters.trans h'.parameters, h.inputs.trans h'.inputs h'.parameters⟩

theorem of_grow {added : Group} (ht : new.trunk = Group.grow added path old.trunk)
    (hi : new.inputs = old.inputs) (hp : old.parameters <+: new.parameters) : old.Prolongs new := by
  refine ⟨fun _ hb => hasBranch_of_grow ht hb, ?_, hp, ?_⟩
  · rw [show new.edges = new.trunk.edges from rfl, ht]
    rcases path with _ | ⟨index, path⟩
    · exact List.prefix_append _ _
    · exact List.prefix_refl _
  · exact DerivesFrom.congr (derivesFrom_self old) hi hp

theorem of_trunk_eq (ht : new.trunk = old.trunk) (hi : new.inputs = old.inputs)
    (hp : old.parameters <+: new.parameters) : old.Prolongs new := by
  have hgrow : new.trunk = Group.grow Group.empty [] old.trunk := by
    rw [ht, Group.grow, Group.append_empty]
  exact of_grow hgrow hi hp

end Prolongs

theorem prolongs_of_addGroup (h : plan.addGroup path = .ok (plan', path')) :
    plan.Prolongs plan' := by
  obtain ⟨ht, hi, hp, -⟩ := addGroup_eq_ok h
  have htrunk := ht Group.empty
  rw [Group.grow_empty] at htrunk
  exact .of_grow htrunk hi (hp ▸ List.prefix_refl _)

theorem prolongs_of_useInput {label : String} (h : plan.useInput label = some plan') :
    plan.Prolongs plan' := by
  unfold useInput at h
  rcases hi : plan.input? label with _ | input <;> simp only [hi] at h
  · cases h
    exact .refl plan
  split_ifs at h
  · have hderives := derivesFrom_of_addInputParameters (derivesFrom_self plan) h
    obtain ⟨position, used, id, -, -, -, rfl⟩ := exists_of_addInputParameters h
    exact ⟨fun _ hb => hb, List.prefix_refl _, List.prefix_append _ _, hderives⟩
  · cases h
    exact .refl plan

/-! ### Inputs that are used -/

/-- The input of a label, if the label is one of an input, has its parameters. -/
def Uses (plan : Plan) (label : String) : Prop :=
  ∀ input ∈ plan.input? label, input.typeParameter.isSome = true

theorem exists_find?_of_forall₂ {α β : Type} {r : α → β → Prop} {p : α → Bool} {q : β → Bool}
    (hpq : ∀ a b, r a b → p a = q b) : ∀ {as : List α} {bs : List β}, List.Forall₂ r as bs →
      ∀ b ∈ bs.find? q, ∃ a ∈ as.find? p, r a b
  | _, _, .nil, _, hb => by cases hb
  | first :: rest, first' :: rest', .cons h hs, b, hb => by
    rw [List.find?_cons] at hb ⊢
    rw [hpq _ _ h]
    rcases hq : q first' <;> rw [hq] at hb
    · exact exists_find?_of_forall₂ hpq hs b hb
    · cases hb
      exact ⟨first, rfl, h⟩

theorem Prolongs.uses (h : old.Prolongs new) {label : String} (hu : old.Uses label) :
    new.Uses label := by
  intro derived hd
  obtain ⟨input, hi, hd⟩ := exists_find?_of_forall₂ (p := fun input => input.label == label)
    (fun _ _ hd => by rw [Input.DerivesFrom.label_eq hd]) h.inputs derived hd
  obtain rfl | ⟨_, _, _, _, _, _, rfl⟩ := hd
  · exact hu _ hi
  · rfl

theorem Prolongs.isSome_input? (h : old.Prolongs new) {label : String}
    (hi : (old.input? label).isSome = true) : (new.input? label).isSome = true := by
  obtain ⟨input, hi⟩ := Option.isSome_iff_exists.mp hi
  obtain ⟨derived, hd, -⟩ := exists_find?_of_forall₂ (p := fun input => input.label == label)
    (fun _ _ hd => by rw [Input.DerivesFrom.label_eq hd]) h.inputs.flip input hi
  exact Option.isSome_of_mem hd

theorem find?_set_of_findIdx? {α : Type} {p : α → Bool} {a : α} (hp : p a = true) :
    ∀ {l : List α} {i : Nat}, l.findIdx? p = some i → (l.set i a).find? p = some a
  | [], _, h => by cases h
  | first :: rest, i, h => by
    rw [List.findIdx?_cons] at h
    split_ifs at h with hfirst
    · cases h
      rw [List.set_cons_zero, List.find?_cons_of_pos hp]
    · obtain ⟨j, hj, rfl⟩ := Option.map_eq_some_iff.mp h
      rw [List.set_cons_succ, List.find?_cons_of_neg hfirst]
      exact find?_set_of_findIdx? hp hj

theorem uses_of_useInput {label : String} (h : plan.useInput label = some plan') :
    plan'.Uses label := by
  unfold useInput at h
  rcases hi : plan.input? label with _ | input <;> simp only [hi] at h
  · cases h
    intro input hinput
    rw [hi] at hinput
    cases hinput
  split_ifs at h with hnone
  · obtain ⟨position, used, id, hpos, hget, -, rfl⟩ := exists_of_addInputParameters h
    obtain ⟨hlt, hlabel, -⟩ := List.findIdx?_eq_some_iff_getElem.mp hpos
    rw [(List.getElem?_eq_some_iff.mp hget).2] at hlabel
    intro other ho
    rw [input?, find?_set_of_findIdx? ?_ hpos] at ho
    · cases ho
      rfl
    · exact hlabel
  · cases h
    intro other ho
    rw [hi] at ho
    cases ho
    simpa [Option.isSome_iff_ne_none] using hnone

end Plan

/-! ### Paths -/

variable {schema : Schema} {stem : String} {path : List Nat}

theorem prolongs_of_edge {plan edged : Plan} {α : Type} {id : Int} {type : String}
    {unknown : Option Plan.Fact} {rest : List α} {predecessor successor role : Nat}
    (h : (nextSlot (plan.addParameter (.integer id)).1 type unknown rest).1.addEdge predecessor
      successor role path = .ok edged) : plan.Prolongs edged := by
  obtain ⟨ht, hi, hp, -⟩ := Plan.addEdge_eq_ok h
  obtain ⟨hinputs, hparameters, htrunk⟩ :=
    nextSlot_eq (plan.addParameter (.integer id)).1 type unknown rest
  rw [htrunk] at ht
  rw [hinputs] at hi
  rw [hparameters] at hp
  exact .of_grow ht hi (hp ▸ List.prefix_append _ _)

theorem prolongs_of_ascend {unknown : Option Plan.Fact} : ∀ {roles : List Role} {plan new : Plan}
    {slot last : Nat} {type : String},
    ascend schema path unknown plan slot type roles = .ok (some (new, last)) → plan.Prolongs new
  | [], plan, _, _, _, _, h => by
    cases h
    exact .refl plan
  | role :: rest, plan, new, slot, last, type, h => by
    rw [ascend] at h
    rcases hr : schema.roleOf type role.name with _ | id <;> simp only [hr] at h
    · cases h
    · obtain ⟨edged, hadd, hrest⟩ := Except.bind_eq_ok_iff.mp h
      exact (prolongs_of_edge hadd).trans (prolongs_of_ascend hrest)

theorem prolongs_of_descend {unknown : Option Plan.Fact} : ∀ {ids : List (Int × String)}
    {plan new : Plan} {slot last : Nat},
    descend path unknown plan slot ids = .ok (new, last) → plan.Prolongs new
  | [], plan, _, _, _, h => by
    cases h
    exact .refl plan
  | (id, type) :: rest, plan, new, slot, last, h => by
    rw [descend] at h
    obtain ⟨edged, hadd, hrest⟩ := Except.bind_eq_ok_iff.mp h
    exact (prolongs_of_edge hadd).trans (prolongs_of_descend hrest)

/-- The steps in which a path condition is joined, whether its unknown was bound before or not. -/
theorem PathCondition.exists_of_join {unknown : Label} {joined new : Joined}
    {condition : PathCondition} {branch : Branch}
    (h : condition.join schema stem path unknown joined = .ok branch)
    (hl : branch.last = some new) : ∃ used right middle slot roles final last,
      joined.plan.useInput condition.labelRight = some used ∧
      joined.bindings.lookup condition.labelRight = some right ∧
      ascend schema path
        (if condition.rolesLeft.isEmpty then joined.bindings.lookup unknown.name else none)
        used right.slot right.type condition.rolesRight = .ok (some (middle, slot)) ∧
      resolveRoles schema unknown.type condition.rolesLeft = some roles ∧
      descend path (joined.bindings.lookup unknown.name) middle slot roles.reverse =
        .ok (final, last) ∧
      (joined.bindings.lookup unknown.name ≠ none ∧ new = ⟨final, joined.bindings⟩ ∨
        joined.bindings.lookup unknown.name = none ∧ new =
          ⟨if path.isEmpty then final.addOutput (stem ++ unknown.name) unknown.type last else final,
            (unknown.name, ⟨last, unknown.type⟩) :: joined.bindings⟩) := by
  unfold PathCondition.join at h
  rcases huse : joined.plan.useInput condition.labelRight with _ | used <;> simp only [huse] at h
  · cases h
    cases hl
  rcases hright : joined.bindings.lookup condition.labelRight with _ | right <;>
    simp only [hright] at h
  · cases h
  obtain ⟨up, hup, h⟩ := Except.bind_eq_ok_iff.mp h
  rcases up with _ | ⟨middle, slot⟩
  · cases h
    cases hl
  rcases hleft : resolveRoles schema unknown.type condition.rolesLeft with _ | roles <;>
    simp only [hleft] at h
  · cases h
    cases hl
  obtain ⟨⟨final, last⟩, hdown, h⟩ := Except.bind_eq_ok_iff.mp h
  refine ⟨used, right, middle, slot, roles, final, last, rfl, rfl, hup, rfl, hdown, ?_⟩
  rcases hbound : joined.bindings.lookup unknown.name with _ | fact <;> simp only [hbound] at h
  · cases h
    cases hl
    exact Or.inr ⟨rfl, rfl⟩
  · cases h
    cases hl
    exact Or.inl ⟨Option.some_ne_none fact, rfl⟩

/-! ### Steps -/

namespace Joined

/-- Nothing of a plan is lost, and its bound labels keep their slots. -/
structure Prolongs (old new : Joined) : Prop where
  plan : old.plan.Prolongs new.plan
  bindings : ∀ name fact, old.bindings.lookup name = some fact →
    new.bindings.lookup name = some fact

variable {a b c : Joined}

theorem Prolongs.refl (joined : Joined) : joined.Prolongs joined :=
  ⟨.refl joined.plan, fun _ _ h => h⟩

theorem Prolongs.trans (h : a.Prolongs b) (h' : b.Prolongs c) : a.Prolongs c :=
  ⟨h.plan.trans h'.plan, fun name fact hl => h'.bindings name fact (h.bindings name fact hl)⟩

/-- **A compilation goes on to another plan and other labels** in the branch of a path. -/
inductive Proceeds (schema : Schema) : List Nat → Joined → Joined → Prop
  | refl {path : List Nat} (joined : Joined) : Proceeds schema path joined joined
  | trans {path : List Nat} {a b c : Joined} :
      Proceeds schema path a b → Proceeds schema path b c → Proceeds schema path a c
  /-- A path condition is joined. -/
  | join {path : List Nat} {a b : Joined} {stem : String} {unknown : Label}
      {condition : PathCondition} {branch : Branch} :
      condition.join schema stem path unknown a = .ok branch → branch.last = some b →
      Proceeds schema path a b
  /-- Labels are forgotten. -/
  | forget {path : List Nat} {a b : Joined} :
      Proceeds schema path a b → Proceeds schema path a ⟨b.plan, a.bindings⟩
  /-- Something is joined inside a new group, and its labels are forgotten. -/
  | group {path path' : List Nat} {a b : Joined} {opened : Plan} :
      a.plan.addGroup path = .ok (opened, path') →
      Proceeds schema path' ⟨opened, a.bindings⟩ b →
      Proceeds schema path a ⟨b.plan, a.bindings⟩

end Joined

namespace PathCondition

variable {unknown : Label} {joined new : Joined} {condition : PathCondition} {branch : Branch}

theorem prolongs_used_of_join (h : condition.join schema stem path unknown joined = .ok branch)
    (hl : branch.last = some new) : ∃ used right,
      joined.plan.useInput condition.labelRight = some used ∧
      joined.bindings.lookup condition.labelRight = some right ∧
      Joined.Prolongs ⟨used, joined.bindings⟩ new := by
  obtain ⟨used, right, middle, slot, roles, final, last, huse, hright, hup, -, hdown, hnew⟩ :=
    exists_of_join h hl
  have hfinal : used.Prolongs final := (prolongs_of_ascend hup).trans (prolongs_of_descend hdown)
  refine ⟨used, right, huse, hright, ?_⟩
  rcases hnew with ⟨-, rfl⟩ | ⟨hfresh, rfl⟩
  · exact ⟨hfinal, fun _ _ hl => hl⟩
  · refine ⟨hfinal.trans ?_, fun name fact hname => ?_⟩
    · split_ifs
      · exact .of_trunk_eq rfl rfl (List.prefix_refl _)
      · exact .refl final
    · have hne : name ≠ unknown.name := fun he => by
        rw [he, hfresh] at hname
        cases hname
      rwa [List.lookup_cons, beq_eq_false_iff_ne.mpr hne]

theorem prolongs_of_join (h : condition.join schema stem path unknown joined = .ok branch)
    (hl : branch.last = some new) : joined.Prolongs new := by
  obtain ⟨used, -, huse, -, hp⟩ := prolongs_used_of_join h hl
  exact ⟨(Plan.prolongs_of_useInput huse).trans hp.plan, hp.bindings⟩

theorem used_of_join (h : condition.join schema stem path unknown joined = .ok branch)
    (hl : branch.last = some new) : ∃ right,
      joined.bindings.lookup condition.labelRight = some right ∧
      new.plan.Uses condition.labelRight := by
  obtain ⟨used, right, huse, hright, hp⟩ := prolongs_used_of_join h hl
  exact ⟨right, hright, hp.plan.uses (Plan.uses_of_useInput huse)⟩

theorem bindings_of_join (h : condition.join schema stem path unknown joined = .ok branch)
    (hl : branch.last = some new) :
    joined.bindings.lookup unknown.name ≠ none ∧ new.bindings = joined.bindings ∨
      ∃ fact, new.bindings = (unknown.name, fact) :: joined.bindings := by
  obtain ⟨used, right, middle, slot, roles, final, last, _, _, _, _, _, hnew⟩ :=
    exists_of_join h hl
  rcases hnew with ⟨hbound, rfl⟩ | ⟨-, rfl⟩
  · exact Or.inl ⟨hbound, rfl⟩
  · exact Or.inr ⟨_, rfl⟩

end PathCondition

/-- **Nothing of a plan is lost on the way.** -/
theorem Joined.Proceeds.prolongs {a b : Joined} (h : a.Proceeds schema path b) :
    a.Prolongs b := by
  induction h with
  | refl joined => exact .refl joined
  | trans _ _ ih ih' => exact ih.trans ih'
  | join hjoin hlast => exact PathCondition.prolongs_of_join hjoin hlast
  | forget _ ih => exact ⟨ih.plan, fun _ _ hl => hl⟩
  | group hgroup _ ih => exact ⟨(Plan.prolongs_of_addGroup hgroup).trans ih.plan, fun _ _ hl => hl⟩

/-- Wherever a branch arrives, the compilation has gone on from its start. -/
structure Branch.Proceeds (schema : Schema) (path : List Nat) (old : Joined) (branch : Branch) :
    Prop where
  completed : ∀ plan ∈ branch.completed, ∃ bindings, old.Proceeds schema path ⟨plan, bindings⟩
  last : ∀ new ∈ branch.last, old.Proceeds schema path new

/-- A compilation refers to a label that is not bound. -/
def PlanError.IsUnknownLabel (error : PlanError) : Prop := ∃ name, error = .unknownLabel name

namespace Branch

variable {path' : List Nat} {old : Joined} {branch : Branch}

theorem Proceeds.continued (joined : Joined) :
    (Branch.continued joined).Proceeds schema path joined :=
  ⟨fun _ hm => absurd hm List.not_mem_nil, fun _ hm => by cases hm; exact .refl joined⟩

theorem Proceeds.andThen {next : Joined → Except PlanError Branch}
    (h : branch.Proceeds schema path old)
    (hn : ∀ b, old.Proceeds schema path b →
      (next b).Ends (Branch.Proceeds schema path b) PlanError.IsUnknownLabel) :
    (branch.andThen next).Ends (Branch.Proceeds schema path old) PlanError.IsUnknownLabel := by
  obtain ⟨completed, _ | b⟩ := branch
  · exact .of_ok h
  · have hb := h.last b rfl
    refine (hn b hb).bind fun rest hrest => .of_ok ⟨fun plan hm => ?_, fun new hm => ?_⟩
    · rcases List.mem_append.mp hm with hm | hm
      · exact h.completed plan hm
      · obtain ⟨bindings, hr⟩ := hrest.completed plan hm
        exact ⟨bindings, hb.trans hr⟩
    · exact hb.trans (hrest.last new hm)

theorem Proceeds.positive (h : branch.Proceeds schema path old) :
    Proceeds schema path old
      ⟨branch.completed, branch.last.map fun last => ⟨last.plan, old.bindings⟩⟩ := by
  refine ⟨h.completed, fun new hm => ?_⟩
  obtain ⟨last, hl, rfl⟩ := Option.map_eq_some_iff.mp hm
  exact .forget (h.last last hl)

/-- A negative existential condition goes on as its block does, and then inside its group. -/
theorem Proceeds.negative {opened : Plan} {failing absent : Branch} {last : Joined}
    (hg : old.plan.addGroup path = .ok (opened, path')) (hf : failing.Proceeds schema path old)
    (ha : absent.Proceeds schema path' ⟨opened, old.bindings⟩) (hl : absent.last = some last) :
    Proceeds schema path old
      ⟨failing.completed ++ (failing.last.map Joined.plan).toList ++ absent.completed,
        some ⟨last.plan, old.bindings⟩⟩ := by
  refine ⟨fun plan hm => ?_, fun new hm => ?_⟩
  · rcases List.mem_append.mp hm with hm | hm
    · rcases List.mem_append.mp hm with hm | hm
      · exact hf.completed plan hm
      · obtain ⟨new, hnew, rfl⟩ := Option.map_eq_some_iff.mp (Option.mem_toList.mp hm)
        exact ⟨new.bindings, hf.last new hnew⟩
    · obtain ⟨bindings, hr⟩ := ha.completed plan hm
      exact ⟨old.bindings, .group hg hr⟩
  · cases hm
    exact .group hg (ha.last last hl)

end Branch

/-! ### Conditions and matches -/

/-- **A path condition is joined**, or its right label is not bound. -/
theorem PathCondition.ends_join {unknown : Label} {condition : PathCondition} {joined : Joined}
    (hb : joined.plan.HasBranch path) :
    (condition.join schema stem path unknown joined).Ends (Branch.Proceeds schema path joined)
      PlanError.IsUnknownLabel := by
  refine ⟨fun branch h => ⟨fun plan hm => ?_, fun new hl => .join h hl⟩, fun e h => ?_⟩
  · rw [completed_of_join h] at hm
    cases hm
  · rcases hright : joined.bindings.lookup condition.labelRight with _ | right
    · unfold PathCondition.join at h
      rcases huse : joined.plan.useInput condition.labelRight with _ | used <;>
        simp only [huse, hright] at h
      · cases h
      · cases h
        exact ⟨_, rfl⟩
    · have hmem := (joined.knows_keys condition.labelRight).mp (by rw [hright]; rfl)
      obtain ⟨branch, hok, -⟩ := condition.exists_join joined.knows_keys hb hmem
      cases h.symm.trans hok

mutual

theorem Condition.ends_join : ∀ (condition : Condition) {path : List Nat} {unknown : Label}
    {joined : Joined}, joined.plan.HasBranch path →
    (condition.join schema stem path unknown joined).Ends (Branch.Proceeds schema path joined)
      PlanError.IsUnknownLabel
  | .path condition, _, _, _, hb => condition.ends_join hb
  | .existential true block, _, _, _, hb =>
    (Match.ends_joinAll block hb).bind fun _ hinner => .of_ok hinner.positive
  | .existential false block, _, _, joined, hb => by
    refine (Match.ends_joinAll block hb).bind fun failing hf => ?_
    obtain ⟨opened, path', hg, -, hb'⟩ := Plan.exists_addGroup hb
    rw [hg]
    have habsent := @Match.ends_joinAll block path' ⟨opened, joined.bindings⟩ hb'
    refine habsent.bind fun absent ha => ?_
    rcases hl : absent.last with _ | last
    · exact .of_ok (.continued joined)
    · exact .of_ok (.negative hg hf ha hl)

theorem Condition.ends_joinAll : ∀ (conditions : List Condition) {path : List Nat}
    {unknown : Label} {joined : Joined}, joined.plan.HasBranch path →
    (Condition.joinAll schema stem path unknown joined conditions).Ends
      (Branch.Proceeds schema path joined) PlanError.IsUnknownLabel
  | [], _, _, joined, _ => .of_ok (.continued joined)
  | condition :: rest, path, _, _, hb =>
    (Condition.ends_join condition hb).bind fun _ hfirst => hfirst.andThen fun _ hnext =>
      Condition.ends_joinAll rest (hnext.prolongs.plan.branches path hb)

/-- **Matches are joined**, or a label is not bound. -/
theorem Match.ends_joinAll : ∀ (block : List Match) {path : List Nat} {joined : Joined},
    joined.plan.HasBranch path → (Match.joinAll schema stem path joined block).Ends
      (Branch.Proceeds schema path joined) PlanError.IsUnknownLabel
  | [], _, joined, _ => .of_ok (.continued joined)
  | ⟨_, conditions⟩ :: rest, path, _, hb =>
    (Condition.ends_joinAll conditions hb).bind fun _ hfirst => hfirst.andThen fun _ hnext =>
      Match.ends_joinAll rest (hnext.prolongs.plan.branches path hb)

end

theorem Condition.prolongs_of_joinAll {conditions : List Condition} {unknown : Label}
    {joined last : Joined} {branch : Branch}
    (h : joinAll schema stem [] unknown joined conditions = .ok branch)
    (hl : branch.last = some last) : joined.Prolongs last := by
  have hproceeds := (ends_joinAll conditions (Plan.hasBranch_nil joined.plan)).ok branch h
  exact (hproceeds.last last hl).prolongs

theorem Match.prolongs_of_joinAll {block : List Match} {joined last : Joined} {branch : Branch}
    (h : joinAll schema stem [] joined block = .ok branch) (hl : branch.last = some last) :
    joined.Prolongs last := by
  have hproceeds := (ends_joinAll block (Plan.hasBranch_nil joined.plan)).ok branch h
  exact (hproceeds.last last hl).prolongs

/-! ### Projections and specifications -/

/-- The compilation has gone on to every one of some plans. -/
def Joined.ProceedsTo (schema : Schema) (joined : Joined) (plans : List Plan) : Prop :=
  ∀ plan ∈ plans, ∃ bindings, joined.Proceeds schema [] ⟨plan, bindings⟩

/-- Behind a block, its plan and those of its projections follow the plans completed in it. -/
theorem Branch.Proceeds.projected {joined : Joined} {branch : Branch}
    (h : branch.Proceeds schema [] joined) {projections : Joined → Except PlanError (List Plan)}
    (hp : ∀ last, (projections last).Ends (last.ProceedsTo schema) PlanError.IsUnknownLabel) :
    Except.Ends (match branch.last with
      | none => return branch.completed
      | some last => do
        let deeper ← projections last
        return branch.completed ++ last.plan :: deeper)
      (joined.ProceedsTo schema) PlanError.IsUnknownLabel := by
  rcases hl : branch.last with _ | last
  · exact .of_ok h.completed
  · refine (hp last).bind fun deeper hdeeper => .of_ok fun plan hm => ?_
    have hlast := h.last last hl
    rcases List.mem_append.mp hm with hm | hm
    · exact h.completed plan hm
    · rcases List.mem_cons.mp hm with rfl | hm
      · exact ⟨last.bindings, hlast⟩
      · obtain ⟨bindings, hd⟩ := hdeeper plan hm
        exact ⟨bindings, hlast.trans hd⟩

mutual

theorem Projection.ends_plans : ∀ (projection : Projection) {stem : String} {joined : Joined},
    (projection.plans schema stem joined).Ends (joined.ProceedsTo schema) PlanError.IsUnknownLabel
  | .nested _ block projections, _, joined =>
    (Match.ends_joinAll block (Plan.hasBranch_nil joined.plan)).bind fun _ hbranch =>
      hbranch.projected fun _ => Projection.ends_plansAll projections
  | .field _ _ _, _, _ | .hash _ _, _, _ | .fact _ _, _, _ =>
    .of_ok fun _ hm => absurd hm List.not_mem_nil

theorem Projection.ends_plansAll : ∀ (projections : List Projection) {stem : String}
    {joined : Joined}, (Projection.plansAll schema stem joined projections).Ends
      (joined.ProceedsTo schema) PlanError.IsUnknownLabel
  | [], _, _ => .of_ok fun _ hm => absurd hm List.not_mem_nil
  | projection :: rest, _, _ => by
    refine (Projection.ends_plans projection).bind fun plans hplans => ?_
    refine (Projection.ends_plansAll rest).bind fun others hothers => .of_ok fun plan hm => ?_
    exact (List.mem_append.mp hm).elim (hplans plan) (hothers plan)

end

/-- **A specification is compiled**, or a label is not bound, if there is a start fact of the right
type for every given label. -/
theorem Specification.ends_plans {spec : Specification} {start : List FactReference}
    (hs : spec.checkStart start = .ok ()) :
    (spec.plans schema start).Ends ((spec.initial schema start).ProceedsTo schema)
      PlanError.IsUnknownLabel := by
  unfold Specification.plans
  rw [hs]
  refine (Match.ends_joinAll spec.body (Plan.hasBranch_nil _)).bind fun branch hbranch => ?_
  exact hbranch.projected fun _ => Projection.ends_plansAll spec.projections

end FactGraph
