import FactGraph.Plan.Compile
import FactGraph.Proofs.Except
import Mathlib.Data.List.Forall2

/-! # Compilations under a view

A view leaves something out of plans. If the operations make plans that look alike from plans that
look alike, then two compilations that start from such plans join plans that look alike, or fail in
the same way, although they may number roles differently and select under different names.

* `Plan.View`: what operations have to keep.
* `Condition.join_view`, `Match.joinAll_view`: what two compilations join, one constructor after the
  other. -/

namespace FactGraph

/-- What a compilation goes on from, under a view. -/
def Joined.under (view : Plan → Plan) (joined : Joined) : Joined :=
  { joined with plan := view joined.plan }

/-- A branch under a view. -/
def Branch.under (view : Plan → Plan) (branch : Branch) : Branch :=
  ⟨branch.completed.map view, branch.last.map (Joined.under view)⟩

/-- Compilations with two catalogs keep plans alike under a view. Both catalogs know the same roles,
whose numbers are related. -/
structure Plan.View (view : Plan → Plan) (schema schema' : Schema) (related : Int → Int → Prop) :
    Prop where
  roles : ∀ type role, Option.Rel related (schema.roleOf type role) (schema'.roleOf type role)
  useInput : ∀ {plan plan' : Plan}, view plan = view plan' → ∀ label,
    (plan.useInput label).map view = (plan'.useInput label).map view
  addParameter : ∀ {plan plan' : Plan} {number number' : Int}, view plan = view plan' →
    related number number' → (plan.addParameter (.integer number)).map view id =
      (plan'.addParameter (.integer number')).map view id
  addFact : ∀ {plan plan' : Plan}, view plan = view plan' → ∀ type,
    (plan.addFact type).map view id = (plan'.addFact type).map view id
  addEdge : ∀ {plan plan' : Plan}, view plan = view plan' → ∀ predecessor successor role path,
    (plan.addEdge predecessor successor role path).map view =
      (plan'.addEdge predecessor successor role path).map view
  addGroup : ∀ {plan plan' : Plan}, view plan = view plan' → ∀ path,
    (plan.addGroup path).map (Prod.map view id) = (plan'.addGroup path).map (Prod.map view id)

/-- Slots that are selected under two prefixes look alike. -/
def Plan.SelectsAlike (view : Plan → Plan) (stem stem' : String) : Prop :=
  ∀ {plan plan' : Plan}, view plan = view plan' → ∀ name type slot,
    view (plan.addOutput (stem ++ name) type slot) = view (plan'.addOutput (stem' ++ name) type slot)

theorem option_cases_of_map_eq {α β γ : Type} {f : α → γ} {g : β → γ} {x : Option α}
    {y : Option β} (h : x.map f = y.map g) :
    x = none ∧ y = none ∨ ∃ a b, x = some a ∧ y = some b ∧ f a = g b := by
  rcases x with _ | a <;> rcases y with _ | b <;> simp_all

theorem option_cases_of_rel {α β : Type} {R : α → β → Prop} {x : Option α} {y : Option β}
    (h : Option.Rel R x y) : x = none ∧ y = none ∨ ∃ a b, x = some a ∧ y = some b ∧ R a b := by
  cases h with
  | none => exact Or.inl ⟨rfl, rfl⟩
  | some h => exact Or.inr ⟨_, _, rfl, rfl, h⟩

variable {view : Plan → Plan} {schema schema' : Schema} {related : Int → Int → Prop}
  {plan plan' : Plan}

/-! ### Paths -/

namespace Plan.View

theorem nextSlot {α β : Type} (hv : View view schema schema' related) (h : view plan = view plan')
    (type : String) (unknown : Option Fact) {rest : List α} {rest' : List β}
    (hl : rest.length = rest'.length) : (nextSlot plan type unknown rest).map view id =
      (FactGraph.nextSlot plan' type unknown rest').map view id := by
  have hfact := hv.addFact h type
  rcases rest with _ | ⟨first, others⟩ <;> rcases rest' with _ | ⟨first', others'⟩
  · rcases unknown with _ | fact
    · exact hfact
    · exact congrArg (·, fact.slot) h
  · cases hl
  · cases hl
  · rcases unknown with _ | fact <;> exact hfact

/-- A role's parameter and slot stand at the same place, whatever its number is. -/
theorem slot {α β : Type} (hv : View view schema schema' related) (h : view plan = view plan')
    {number number' : Int} (hn : related number number') (type : String) (unknown : Option Fact)
    {rest : List α} {rest' : List β} (hl : rest.length = rest'.length) :
    (plan.addParameter (.integer number)).2 = (plan'.addParameter (.integer number')).2 ∧
      view (FactGraph.nextSlot (plan.addParameter (.integer number)).1 type unknown rest).1 =
        view (FactGraph.nextSlot (plan'.addParameter (.integer number')).1 type unknown rest').1 ∧
      (FactGraph.nextSlot (plan.addParameter (.integer number)).1 type unknown rest).2 =
        (FactGraph.nextSlot (plan'.addParameter (.integer number')).1 type unknown rest').2 := by
  obtain ⟨hparameter, hposition⟩ := Prod.ext_iff.mp (hv.addParameter h hn)
  obtain ⟨hnext, hslot⟩ := Prod.ext_iff.mp (hv.nextSlot hparameter type unknown hl)
  exact ⟨hposition, hnext, hslot⟩

end Plan.View

theorem ascend_view (hv : Plan.View view schema schema' related) {path : List Nat}
    {unknown : Option Plan.Fact} : ∀ {roles : List Role} {plan plan' : Plan} {slot : Nat}
    {type : String}, view plan = view plan' →
      (ascend schema path unknown plan slot type roles).map (Option.map (Prod.map view id)) =
        (ascend schema' path unknown plan' slot type roles).map (Option.map (Prod.map view id))
  | [], plan, plan', slot, type, h => congrArg (fun plan => Except.ok (some (plan, slot))) h
  | role :: rest, plan, plan', slot, type, h => by
    rw [ascend, ascend]
    rcases option_cases_of_rel (hv.roles type role.name) with
      ⟨hr, hr'⟩ | ⟨number, number', hr, hr', hn⟩
    · rw [hr, hr']
    rw [hr, hr']
    obtain ⟨hposition, hplan, hslot⟩ :=
      hv.slot h hn role.target unknown (rfl : rest.length = rest.length)
    simp only [hposition, hslot]
    exact Except.map_bind_congr (hv.addEdge hplan _ _ _ _)
      fun edged edged' he => ascend_view hv he

/-- Roles with their numbers and the types that declare them, in two catalogs. -/
abbrev RolesAlike (related : Int → Int → Prop) : List (Int × String) → List (Int × String) → Prop :=
  List.Forall₂ fun role role' => related role.1 role'.1 ∧ role.2 = role'.2

theorem resolveRoles_view (hv : Plan.View view schema schema' related) : ∀ {roles : List Role}
    {type : String}, Option.Rel (RolesAlike related) (resolveRoles schema type roles)
      (resolveRoles schema' type roles)
  | [], _ => .some .nil
  | role :: rest, type => by
    have hrest := @resolveRoles_view hv rest role.target
    rw [resolveRoles, resolveRoles]
    rcases option_cases_of_rel (hv.roles type role.name) with
      ⟨hr, hr'⟩ | ⟨number, number', hr, hr', hn⟩ <;> rw [hr, hr']
    · exact .none
    rcases option_cases_of_rel hrest with ⟨hi, hi'⟩ | ⟨ids, ids', hi, hi', hids⟩ <;> rw [hi, hi']
    · exact .none
    · exact .some (.cons ⟨hn, rfl⟩ hids)

theorem descend_view (hv : Plan.View view schema schema' related) {path : List Nat}
    {unknown : Option Plan.Fact} : ∀ {ids ids' : List (Int × String)} {plan plan' : Plan}
    {slot : Nat}, RolesAlike related ids ids' → view plan = view plan' →
      (descend path unknown plan slot ids).map (Prod.map view id) =
        (descend path unknown plan' slot ids').map (Prod.map view id)
  | [], [], plan, plan', slot, _, h => congrArg (fun plan => Except.ok (plan, slot)) h
  | (number, type) :: rest, (number', _) :: rest', plan, plan', slot, .cons ⟨hn, rfl⟩ hrest, h => by
    obtain ⟨hposition, hplan, hslot⟩ := hv.slot h hn type unknown (List.Forall₂.length_eq hrest)
    rw [descend, descend]
    simp only [hposition, hslot]
    exact Except.map_bind_congr (hv.addEdge hplan _ _ _ _)
      fun edged edged' he => descend_view hv hrest he

/-! ### Branches -/

namespace Branch

variable {branch branch' : Branch}

theorem andThen_view {next next' : Joined → Except PlanError Branch}
    (h : branch.under view = branch'.under view) (hn : ∀ joined joined' : Joined,
      joined.under view = joined'.under view →
        (next joined).map (under view) = (next' joined').map (under view)) :
    (branch.andThen next).map (under view) = (branch'.andThen next').map (under view) := by
  obtain ⟨completed, last⟩ := branch
  obtain ⟨completed', last'⟩ := branch'
  obtain ⟨hcompleted, hlast⟩ := Branch.mk.inj h
  rcases option_cases_of_map_eq hlast with ⟨rfl, rfl⟩ | ⟨joined, joined', rfl, rfl, hjoined⟩
  · exact congrArg (fun completed => Except.ok (Branch.mk completed none)) hcompleted
  · refine Except.map_bind_congr (hn joined joined' hjoined) fun rest rest' hrest => ?_
    obtain ⟨hothers, hrest⟩ := Branch.mk.inj hrest
    show Except.ok (Branch.mk ((completed ++ rest.completed).map view) _) =
      Except.ok (Branch.mk ((completed' ++ rest'.completed).map view) _)
    rw [List.map_append, List.map_append, hcompleted, hothers, hrest]

theorem last_view (h : branch.under view = branch'.under view) (bindings : Bindings) :
    (branch.last.map fun last => Joined.mk last.plan bindings).map (Joined.under view) =
      (branch'.last.map fun last => Joined.mk last.plan bindings).map (Joined.under view) := by
  have hlast := congrArg (Option.map fun last => Joined.mk last.plan bindings)
    (Branch.mk.inj h).2
  rw [Option.map_map, Option.map_map] at hlast ⊢
  exact hlast

theorem plans_view (h : branch.under view = branch'.under view) :
    (branch.completed ++ (branch.last.map Joined.plan).toList).map view =
      (branch'.completed ++ (branch'.last.map Joined.plan).toList).map view := by
  obtain ⟨hcompleted, hlast⟩ := Branch.mk.inj h
  rw [List.map_append, List.map_append, hcompleted]
  rcases option_cases_of_map_eq hlast with ⟨hl, hl'⟩ | ⟨joined, joined', hl, hl', hjoined⟩ <;>
    rw [hl, hl']
  exact congrArg (fun joined : Joined => _ ++ [joined.plan]) hjoined

end Branch

/-! ### Matches -/

section

variable {stem stem' : String}

/-- **A path condition joins alike** under both prefixes. -/
theorem PathCondition.join_view (hv : Plan.View view schema schema' related)
    (ho : Plan.SelectsAlike view stem stem') {path : List Nat} {unknown : Label}
    {condition : PathCondition} {joined joined' : Joined}
    (h : joined.under view = joined'.under view) :
    (condition.join schema stem path unknown joined).map (Branch.under view) =
      (condition.join schema' stem' path unknown joined').map (Branch.under view) := by
  obtain ⟨plan, bindings⟩ := joined
  obtain ⟨plan', bindings'⟩ := joined'
  obtain ⟨hplan, rfl⟩ := Joined.mk.inj h
  unfold PathCondition.join
  rcases option_cases_of_map_eq (hv.useInput hplan condition.labelRight) with
    ⟨hu, hu'⟩ | ⟨used, used', hu, hu', hused⟩
  · simp only [hu, hu']
  simp only [hu, hu']
  rcases bindings.lookup condition.labelRight with _ | right
  · rfl
  refine Except.map_bind_congr (ascend_view hv hused) fun up up' hup => ?_
  rcases option_cases_of_map_eq hup with
    ⟨rfl, rfl⟩ | ⟨⟨middle, slot⟩, ⟨middle', slot'⟩, rfl, rfl, he⟩
  · rfl
  obtain ⟨hmiddle, rfl⟩ := Prod.mk.inj he
  rcases option_cases_of_rel (@resolveRoles_view _ _ _ _ hv condition.rolesLeft unknown.type) with
    ⟨hr, hr'⟩ | ⟨ids, ids', hr, hr', hids⟩
  · simp only [hr, hr']
  simp only [hr, hr']
  refine Except.map_bind_congr (descend_view hv (List.rel_reverse hids) hmiddle)
    fun down down' hdown => ?_
  obtain ⟨final, slot⟩ := down
  obtain ⟨final', slot'⟩ := down'
  obtain ⟨hfinal, rfl⟩ := Prod.mk.inj hdown
  rcases bindings.lookup unknown.name with _ | bound
  · have hselected : view (if path.isEmpty then
        final.addOutput (stem ++ unknown.name) unknown.type slot else final) =
      view (if path.isEmpty then
        final'.addOutput (stem' ++ unknown.name) unknown.type slot else final') := by
      split_ifs
      · exact ho hfinal unknown.name unknown.type slot
      · exact hfinal
    exact congrArg (fun plan => Except.ok (Branch.continued
      ⟨plan, (unknown.name, ⟨slot, unknown.type⟩) :: bindings⟩)) hselected
  · exact congrArg (fun plan => Except.ok (Branch.continued ⟨plan, bindings⟩)) hfinal

mutual

/-- **A condition is joined alike** under both prefixes. -/
theorem Condition.join_view (hv : Plan.View view schema schema' related)
    (ho : Plan.SelectsAlike view stem stem') {unknown : Label} :
    ∀ {condition : Condition} {path : List Nat} {joined joined' : Joined},
    joined.under view = joined'.under view →
      (condition.join schema stem path unknown joined).map (Branch.under view) =
        (condition.join schema' stem' path unknown joined').map (Branch.under view)
  | .path condition, path, joined, joined', h => by
    rw [Condition.join, Condition.join]
    exact PathCondition.join_view hv ho h
  | .existential true block, path, joined, joined', h => by
    rw [Condition.join, Condition.join]
    refine Except.map_bind_congr (Match.joinAll_view hv ho h) fun inner inner' hi => ?_
    have hlast := Branch.last_view hi joined.bindings
    have hbindings : joined.bindings = joined'.bindings := (Joined.mk.inj h).2
    show Except.ok (Branch.mk (inner.completed.map view) _) =
      Except.ok (Branch.mk (inner'.completed.map view) _)
    rw [(Branch.mk.inj hi).1, hlast, hbindings]
  | .existential false block, path, joined, joined', h => by
    obtain ⟨plan, bindings⟩ := joined
    obtain ⟨plan', bindings'⟩ := joined'
    obtain ⟨hplan, rfl⟩ := Joined.mk.inj h
    rw [Condition.join, Condition.join]
    refine Except.map_bind_congr (Match.joinAll_view hv ho h) fun failing failing' hf => ?_
    refine Except.map_bind_congr (hv.addGroup hplan path) fun opened opened' hg => ?_
    obtain ⟨opened, inner⟩ := opened
    obtain ⟨opened', inner'⟩ := opened'
    obtain ⟨hopened, rfl⟩ := Prod.mk.inj hg
    have hinner : (Joined.mk opened bindings).under view = (Joined.mk opened' bindings).under view :=
      congrArg (fun plan => Joined.mk plan bindings) hopened
    refine Except.map_bind_congr (Match.joinAll_view hv ho hinner) fun absent absent' ha => ?_
    rcases option_cases_of_map_eq (Branch.mk.inj ha).2 with
      ⟨hl, hl'⟩ | ⟨last, last', hl, hl', hlast⟩ <;> simp only [hl, hl']
    · exact congrArg (fun plan => Except.ok (Branch.continued ⟨plan, bindings⟩)) hplan
    · have hlast : view last.plan = view last'.plan := (Joined.mk.inj hlast).1
      have hplans := congrArg₂ (· ++ ·) (Branch.plans_view hf) (Branch.mk.inj ha).1
      simp only [← List.map_append] at hplans
      show Except.ok (Branch.mk (List.map view _) (some ⟨view last.plan, bindings⟩)) =
        Except.ok (Branch.mk (List.map view _) (some ⟨view last'.plan, bindings⟩))
      rw [hplans, hlast]

/-- **Matches are joined alike** under both prefixes. -/
theorem Match.joinAll_view (hv : Plan.View view schema schema' related)
    (ho : Plan.SelectsAlike view stem stem') :
    ∀ {block : List Match} {path : List Nat} {joined joined' : Joined},
    joined.under view = joined'.under view →
      (Match.joinAll schema stem path joined block).map (Branch.under view) =
        (Match.joinAll schema' stem' path joined' block).map (Branch.under view)
  | [], _, _, _, h => congrArg (fun joined => Except.ok (Branch.continued joined)) h
  | ⟨unknown, conditions⟩ :: rest, path, joined, joined', h => by
    rw [Match.joinAll, Match.joinAll, Match.join, Match.join]
    exact Except.map_bind_congr (Condition.joinAll_view hv ho h) fun branch branch' hb =>
      Branch.andThen_view hb fun _ _ hj => Match.joinAll_view hv ho hj

theorem Condition.joinAll_view (hv : Plan.View view schema schema' related)
    (ho : Plan.SelectsAlike view stem stem') {unknown : Label} :
    ∀ {conditions : List Condition} {path : List Nat} {joined joined' : Joined},
    joined.under view = joined'.under view →
      (Condition.joinAll schema stem path unknown joined conditions).map (Branch.under view) =
        (Condition.joinAll schema' stem' path unknown joined' conditions).map (Branch.under view)
  | [], _, _, _, h => congrArg (fun joined => Except.ok (Branch.continued joined)) h
  | condition :: rest, path, joined, joined', h => by
    rw [Condition.joinAll, Condition.joinAll]
    exact Except.map_bind_congr (Condition.join_view hv ho h) fun branch branch' hb =>
      Branch.andThen_view hb fun _ _ hj => Condition.joinAll_view hv ho hj

end

end

end FactGraph
