import FactGraph.Proofs.Plan.Inputs

/-! # Chains of edges

The roles of a path condition are joined as a chain of edges through new slots. The facts that can be
assigned to the end of the chain are those to which the numbered roles lead.

* `ascend_chain`, `descend_chain`: what the compilation of roles appends, and what it means. -/

namespace FactGraph

variable {Node : Type} {R : Rows Node}

/-- Roles, given by their numbers, lead up from a fact to another one. -/
def Rows.Up (R : Rows Node) : List Int → Node → Node → Prop
  | [], f, g => f = g
  | role :: rest, f, g => ∃ h, R.edge role f h ∧ R.Up rest h g

theorem Rows.up_append : ∀ {a b : List Int} {f g : Node},
    R.Up (a ++ b) f g ↔ ∃ h, R.Up a f h ∧ R.Up b h g
  | [], b, f, g => by simp [Rows.Up]
  | role :: rest, b, f, g => by
    simp only [List.cons_append, Rows.Up, Rows.up_append]
    constructor
    · rintro ⟨h, he, k, hr, hb⟩
      exact ⟨k, ⟨h, he, hr⟩, hb⟩
    · rintro ⟨k, ⟨h, he, hr⟩, hb⟩
      exact ⟨h, he, k, hr, hb⟩

/-- Roles lead up from two facts to the same one. -/
def Rows.Meet (R : Rows Node) (a b : List Int) (f g : Node) : Prop :=
  ∃ top, R.Up a f top ∧ R.Up b g top

theorem Rows.up_singleton {role : Int} {f g : Node} : R.Up [role] f g ↔ R.edge role f g := by
  simp [Rows.Up]

namespace Plan

/-! ### Chains -/

/-- Edges have been appended to the branch of a path that lead from the fact in one slot to the facts
that can be assigned to another. -/
structure Chain (R : Rows Node) (path : List Nat) (old : Plan) (slot : Nat) (new : Plan)
    (last : Nat) (edges : List Edge) (leads : Node → Node → Prop) : Prop where
  grows : Grows path [slot] old new ⟨edges, []⟩
  arrives : last = slot ∨ last ∈ ends edges
  means : ∀ parameters, new.parameters <+: parameters → ∀ (outer : List Nat) (σ : Nat → Node),
    slot ∈ outer → (∀ s ∈ outer, s ≤ old.facts.length) → ∀ g,
      (∃ τ, Agree outer τ σ ∧ (∀ edge ∈ edges, edge.Holds R parameters τ) ∧ τ last = g) ↔
        leads (σ slot) g

theorem Chain.refl {path : List Nat} (plan : Plan) (slot : Nat) :
    Chain R path plan slot plan slot [] (R.Up []) where
  grows := Grows.refl plan
  arrives := Or.inl rfl
  means _ _ outer σ hs _ g := by
    simp only [List.not_mem_nil, false_implies, implies_true, true_and, Rows.Up]
    exact ⟨fun ⟨τ, ha, hg⟩ => (ha slot hs).symm.trans hg, fun h => ⟨σ, Agree.refl σ, h⟩⟩

/-- An assignment that satisfies an edge to a new slot chooses a fact for that slot. -/
theorem exists_holds_cons {parameters : List Parameter} {outer : List Nat} {σ : Nat → Node}
    {edge : Edge} {edges : List Edge} {fresh : Nat} {Q : (Nat → Node) → Prop} (hf : fresh ∉ outer)
    (he : edge.slots ⊆ fresh :: outer) :
    (∃ τ, Agree outer τ σ ∧ (∀ e ∈ edge :: edges, e.Holds R parameters τ) ∧ Q τ) ↔
      ∃ f, edge.Holds R parameters (Function.update σ fresh f) ∧
        ∃ τ, Agree (fresh :: outer) τ (Function.update σ fresh f) ∧
          (∀ e ∈ edges, e.Holds R parameters τ) ∧ Q τ := by
  have hne : ∀ s ∈ outer, s ≠ fresh := fun s hs h => hf (h ▸ hs)
  constructor
  · rintro ⟨τ, ha, hh, hq⟩
    have hag : Agree (fresh :: outer) τ (Function.update σ fresh (τ fresh)) := by
      intro s hs
      rcases List.mem_cons.mp hs with rfl | hs
      · rw [Function.update_self]
      · rw [Function.update_of_ne (hne s hs), ha s hs]
    exact ⟨τ fresh, (Edge.holds_congr (hag.mono he)).mp (hh edge List.mem_cons_self), τ, hag,
      fun e hm => hh e (List.mem_cons_of_mem _ hm), hq⟩
  · rintro ⟨f, hedge, τ, ha, hh, hq⟩
    refine ⟨τ, fun s hs => ?_, fun e hm => ?_, hq⟩
    · rw [ha s (List.mem_cons_of_mem _ hs), Function.update_of_ne (hne s hs)]
    · rcases List.mem_cons.mp hm with rfl | hm
      · exact (Edge.holds_congr (ha.mono he)).mpr hedge
      · exact hh e hm

/-- A plan in which one more slot, one more parameter and an edge to the new slot are joined. -/
structure Joins (path : List Nat) (old : Plan) (slot : Nat) (role : Int) (new : Plan)
    (edge : Edge) : Prop where
  trunk : new.trunk = Group.grow ⟨[edge], []⟩ path old.trunk
  inputs : new.inputs = old.inputs
  parameters : new.parameters = old.parameters ++ [.integer role]
  facts : new.facts.length = old.facts.length + 1
  roleParameter : edge.roleParameter = old.parameters.length + 1
  slots : ∀ s, s ∈ edge.slots ↔ s = slot ∨ s = old.facts.length + 1

theorem Joins.edge_holds_iff {path : List Nat} {old new : Plan} {slot : Nat} {role : Int}
    {edge : Edge} (h : Joins path old slot role new edge) {parameters : List Parameter}
    (hp : new.parameters <+: parameters) {σ : Nat → Node} :
    edge.Holds R parameters σ ↔ R.edge role (σ edge.successor) (σ edge.predecessor) := by
  have hat : parameterAt parameters edge.roleParameter = some (.integer role) :=
    parameterAt_of_prefix hp (by rw [h.parameters, h.roleParameter]; simp [parameterAt])
  simp [Edge.Holds, hat]

theorem Joins.mem_slots {path : List Nat} {old new : Plan} {slot : Nat} {role : Int} {edge : Edge}
    (h : Joins path old slot role new edge) {s : Nat} :
    s ∈ (⟨[edge], []⟩ : Group).slots ↔ s = slot ∨ s = old.facts.length + 1 := by
  simp [Group.slots_eq, ends, Group.slotsAll, h.slots]

theorem Joins.grows {path : List Nat} {old new : Plan} {slot : Nat} {role : Int} {edge : Edge}
    (h : Joins path old slot role new edge) (hset : old.Settles slot)
    (hin : ∀ input ∈ old.inputs, input.slot ≤ old.facts.length) :
    Grows path [slot] old new ⟨[edge], []⟩ := by
  refine Grows.of_inputs_eq h.inputs h.trunk (h.parameters ▸ List.prefix_append _ _)
    (by rw [h.facts]; omega) hin (by simpa using hset) fun s hs => ?_
  rw [h.facts, List.mem_singleton]
  exact (h.mem_slots.mp hs).imp_right fun h => by omega

theorem Chain.cons {path : List Nat} {old middle new : Plan} {slot last : Nat} {role : Int}
    {edge : Edge} {edges : List Edge} {leads first rest : Node → Node → Prop}
    (hleads : ∀ f g, leads f g ↔ ∃ h, first f h ∧ rest h g)
    (hj : Joins path old slot role middle edge) (hslot : slot ≤ old.facts.length)
    (hset : old.Settles slot) (hin : ∀ input ∈ old.inputs, input.slot ≤ old.facts.length)
    (hfirst : ∀ σ : Nat → Node, R.edge role (σ edge.successor) (σ edge.predecessor) ↔
      first (σ slot) (σ (old.facts.length + 1)))
    (hc : Chain R path middle (old.facts.length + 1) new last edges rest) :
    Chain R path old slot new last (edge :: edges) leads := by
  refine ⟨(hj.grows hset hin).trans hc.grows ?_, ?_, ?_⟩
  · intro s hs
    rw [List.mem_singleton] at hs
    exact Or.inr (hj.mem_slots.mpr (Or.inr hs))
  · refine Or.inr ?_
    show last ∈ edge.slots ++ ends edges
    rcases hc.arrives with h | h
    · exact List.mem_append_left _ ((hj.slots last).mpr (Or.inr h))
    · exact List.mem_append_right _ h
  · intro parameters hp outer σ hso hb g
    have hfresh : old.facts.length + 1 ∉ outer := fun hm => by
      have := hb _ hm
      omega
    have hsub : edge.slots ⊆ (old.facts.length + 1) :: outer := by
      intro s hs
      rcases (hj.slots s).mp hs with rfl | rfl
      · exact List.mem_cons_of_mem _ hso
      · exact List.mem_cons_self
    rw [exists_holds_cons hfresh hsub, hleads]
    refine exists_congr fun f => and_congr ?_ ?_
    · rw [hj.edge_holds_iff (hc.grows.parameters.trans hp), hfirst, Function.update_self,
        Function.update_of_ne (by omega)]
    · rw [hc.means parameters hp _ _ List.mem_cons_self, Function.update_self]
      intro s hs
      rw [hj.facts]
      rcases List.mem_cons.mp hs with rfl | hs
      · exact Nat.le_refl _
      · have := hb s hs
        omega

section

variable {path : List Nat} {old used new : Plan} {slot last : Nat} {edges : List Edge}
  {leads : Node → Node → Prop}

theorem Chain.addOutput (h : Chain R path old slot new last edges leads) (label type : String)
    (selected : Nat) :
    Chain R path old slot (new.addOutput label type selected) last edges leads where
  grows := h.grows.addOutput label type selected
  arrives := h.arrives
  means := h.means

theorem Chain.of_used (hused : Grows path [slot] old used Group.empty)
    (hfacts : used.facts = old.facts) (h : Chain R path used slot new last edges leads) :
    Chain R path old slot new last edges leads where
  grows := hused.trans h.grows fun _ hs => Or.inl hs
  arrives := h.arrives
  means parameters hp outer σ hs hle := h.means parameters hp outer σ hs (hfacts ▸ hle)

theorem Chain.settles (h : Chain R path old slot new last edges leads) (hset : old.Settles slot) :
    new.Settles last := by
  rcases h.arrives with rfl | hm
  · exact h.grows.settles _ hset
  · exact h.grows.settled _ (Group.mem_slots_of_mem_ends hm)

theorem Chain.le_of_mem_ends (h : Chain R path old slot new last edges leads)
    (hslot : slot ≤ old.facts.length) {s : Nat} (hs : s ∈ ends edges) : s ≤ new.facts.length := by
  have hfacts := h.grows.facts
  rcases h.grows.slots s (Group.mem_slots_of_mem_ends hs) with hs | hs
  · rw [List.mem_singleton] at hs
    omega
  · exact hs.2

theorem Chain.last_le (h : Chain R path old slot new last edges leads)
    (hslot : slot ≤ old.facts.length) : last ≤ new.facts.length := by
  have hfacts := h.grows.facts
  rcases h.arrives with rfl | hm
  · omega
  · exact h.le_of_mem_ends hslot hm

end

theorem Chain.trans {path : List Nat} {a b c : Plan} {slot middle last : Nat}
    {edges edges' : List Edge} {leads leads' : Node → Node → Prop} (hslot : slot ≤ a.facts.length)
    (h : Chain R path a slot b middle edges leads)
    (h' : Chain R path b middle c last edges' leads') :
    Chain R path a slot c last (edges ++ edges') fun f g => ∃ h, leads f h ∧ leads' h g := by
  refine ⟨h.grows.trans h'.grows fun s hs => ?_, ?_, ?_⟩
  · rw [List.mem_singleton] at hs ⊢
    rw [hs]
    exact h.arrives.imp_right Group.mem_slots_of_mem_ends
  · rw [ends_append, List.mem_append]
    rcases h'.arrives with rfl | hm
    · exact h.arrives.imp_right Or.inl
    · exact Or.inr (Or.inr hm)
  · intro parameters hp outer σ hso hb g
    have hmiddle : middle ∈ outer ++ ends edges := by
      rcases h.arrives with rfl | hm
      · exact List.mem_append_left _ hso
      · exact List.mem_append_right _ hm
    have hb' : ∀ s ∈ outer ++ ends edges, s ≤ b.facts.length := by
      intro s hs
      rcases List.mem_append.mp hs with hs | hs
      · exact Nat.le_trans (hb s hs) h.grows.facts
      · exact h.le_of_mem_ends hslot hs
    have hfirst := h.means parameters (h'.grows.parameters.trans hp) outer σ hso hb
    have hsecond := fun τ => h'.means parameters hp (outer ++ ends edges) τ hmiddle hb' g
    simp only [List.forall_mem_append]
    constructor
    · rintro ⟨τ, ha, ⟨he, he'⟩, hg⟩
      exact ⟨τ middle, (hfirst _).mp ⟨τ, ha, he, rfl⟩, (hsecond τ).mp ⟨τ, Agree.refl τ, he', hg⟩⟩
    · rintro ⟨f, hf, hg⟩
      obtain ⟨τ, ha, he, rfl⟩ := (hfirst f).mpr hf
      obtain ⟨υ, ha', he', hg⟩ := (hsecond τ).mpr hg
      refine ⟨υ, (ha'.mono (List.subset_append_left _ _)).trans ha, ⟨fun edge hm => ?_, he'⟩, hg⟩
      have hsub := List.Subset.trans (Edge.slots_subset_ends hm) (List.subset_append_right outer _)
      exact (Edge.holds_congr (ha'.mono hsub)).mpr (he edge hm)

theorem joins_of_addEdge {plan new : Plan} {path : List Nat} {role : Int} {type : String}
    {slot predecessor successor : Nat}
    (h : ((plan.addParameter (.integer role)).1.addFact type).1.addEdge predecessor successor
      (plan.parameters.length + 1) path = .ok new)
    (hs : predecessor = slot ∧ successor = plan.facts.length + 1 ∨
      predecessor = plan.facts.length + 1 ∧ successor = slot) :
    Joins path plan slot role new
      ⟨plan.edgeCount + 1, predecessor, successor, plan.parameters.length + 1⟩ := by
  obtain ⟨ht, hi, hp, hf⟩ := addEdge_eq_ok h
  refine ⟨ht, hi, hp, ?_, rfl, fun s => ?_⟩
  · rw [hf]
    simp [addFact, addParameter]
  · simp only [Edge.slots, List.mem_cons, List.not_mem_nil, or_false]
    rcases hs with ⟨rfl, rfl⟩ | ⟨rfl, rfl⟩
    · exact Iff.rfl
    · exact or_comm

theorem Joins.settles {path : List Nat} {old new : Plan} {slot : Nat} {role : Int} {edge : Edge}
    (h : Joins path old slot role new edge)
    (hin : ∀ input ∈ old.inputs, input.slot ≤ old.facts.length) :
    new.Settles (old.facts.length + 1) ∧ ∀ input ∈ new.inputs, input.slot ≤ new.facts.length := by
  unfold Settles
  rw [h.inputs, h.facts]
  refine ⟨fun input hm he => ?_, fun input hm => ?_⟩
  · have := hin input hm
    omega
  · have := hin input hm
    omega

end Plan

/-! ### Roles -/

theorem nextSlot_none {α : Type} {plan : Plan} {type : String} {rest : List α} :
    nextSlot plan type none rest = plan.addFact type := by
  cases rest <;> rfl

section

variable (R) {schema : Schema} {path : List Nat}

/-- **Roles upwards make a chain**, which means that they lead up. -/
theorem ascend_chain : ∀ {roles : List Role} {plan new : Plan} {slot last : Nat} {type : String},
    ascend schema path none plan slot type roles = .ok (some (new, last)) →
    slot ≤ plan.facts.length → plan.Settles slot →
    (∀ input ∈ plan.inputs, input.slot ≤ plan.facts.length) →
    ∃ ids edges, resolveRoles schema type roles = some ids ∧
      Plan.Chain R path plan slot new last edges (R.Up (ids.map Prod.fst))
  | [], plan, _, slot, _, _, h, _, _, _ => by
    cases h
    exact ⟨[], [], rfl, Plan.Chain.refl plan slot⟩
  | role :: rest, plan, new, slot, last, type, h, hslot, hset, hin => by
    rw [ascend] at h
    rcases hr : schema.roleOf type role.name with _ | id <;> simp only [hr] at h
    · cases h
    · rw [nextSlot_none] at h
      obtain ⟨middle, hadd, hrest⟩ := Except.bind_eq_ok_iff.mp h
      have hj := Plan.joins_of_addEdge hadd (Or.inr ⟨rfl, rfl⟩)
      obtain ⟨hset', hin'⟩ := hj.settles hin
      obtain ⟨ids, edges, hids, hc⟩ := ascend_chain hrest (by rw [hj.facts]; exact Nat.le_refl _)
        hset' hin'
      have hleads : ∀ f g, R.Up (((id, type) :: ids).map Prod.fst) f g ↔
          ∃ h, R.edge id f h ∧ R.Up (ids.map Prod.fst) h g := fun _ _ => Iff.rfl
      exact ⟨(id, type) :: ids, _, by simp [resolveRoles, hr, hids],
        Plan.Chain.cons hleads hj hslot hset hin (fun _ => Iff.rfl) hc⟩

theorem isSome_of_ascend {unknown : Option Plan.Fact} : ∀ {roles : List Role} {plan : Plan}
    {slot : Nat} {type : String} {result : Option (Plan × Nat)},
    ascend schema path unknown plan slot type roles = .ok result →
      result.isSome = (resolveRoles schema type roles).isSome
  | [], _, _, _, _, h => by
    cases h
    rfl
  | role :: rest, plan, slot, type, result, h => by
    rw [ascend] at h
    rcases hr : schema.roleOf type role.name with _ | id <;> simp only [hr] at h
    · cases h
      simp [resolveRoles, hr]
    · obtain ⟨middle, -, hrest⟩ := Except.bind_eq_ok_iff.mp h
      rw [isSome_of_ascend hrest]
      rcases hothers : resolveRoles schema role.target rest <;> simp [resolveRoles, hr, hothers]

/-- **Roles downwards make a chain**, which means that they lead up in reverse. -/
theorem descend_chain : ∀ {ids : List (Int × String)} {plan new : Plan} {slot last : Nat},
    descend path none plan slot ids = .ok (new, last) →
    slot ≤ plan.facts.length → plan.Settles slot →
    (∀ input ∈ plan.inputs, input.slot ≤ plan.facts.length) →
    ∃ edges, Plan.Chain R path plan slot new last edges fun f g =>
      R.Up (ids.map Prod.fst).reverse g f
  | [], plan, _, slot, _, h, _, _, _ => by
    cases h
    refine ⟨[], ?_⟩
    have hrefl : Plan.Chain R path plan slot plan slot [] (R.Up []) := Plan.Chain.refl plan slot
    simpa [Rows.Up, eq_comm] using hrefl
  | (id, type) :: rest, plan, new, slot, last, h, hslot, hset, hin => by
    rw [descend] at h
    simp only [nextSlot_none] at h
    obtain ⟨middle, hadd, hrest⟩ := Except.bind_eq_ok_iff.mp h
    have hj := Plan.joins_of_addEdge hadd (Or.inl ⟨rfl, rfl⟩)
    obtain ⟨hset', hin'⟩ := hj.settles hin
    obtain ⟨edges, hc⟩ := descend_chain hrest (by rw [hj.facts]; exact Nat.le_refl _) hset' hin'
    have hleads : ∀ f g, R.Up (((id, type) :: rest).map Prod.fst).reverse g f ↔
        ∃ h, R.edge id h f ∧ R.Up (rest.map Prod.fst).reverse g h := by
      intro f g
      rw [List.map_cons, List.reverse_cons, Rows.up_append]
      simp only [Rows.up_singleton, and_comm]
    exact ⟨_, Plan.Chain.cons hleads hj hslot hset hin (fun _ => Iff.rfl) hc⟩

end

end FactGraph
