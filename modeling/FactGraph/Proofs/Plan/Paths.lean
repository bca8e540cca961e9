import FactGraph.Proofs.Plan.Joined

/-! # Joining path conditions

A path condition is joined as a chain from the slot of the label on its right side, up its roles and
down those of its left side, to the slot of the unknown.

* `PathCondition.join_outcome`: the facts that can be assigned to the new slot are those that satisfy
  the path condition. -/

namespace FactGraph

variable {Node : Type} {G : Graph Node} {schema : Schema} {hash : Node → String}
  {inputs : List Plan.Input}

namespace Joined

/-- The bound labels are visible, with the types of their slots. -/
def Within (joined : Joined) (scope : Scope) : Prop :=
  ∀ label fact, joined.bindings.lookup label = some fact → scope.type? label = some fact.type

/-- **What becomes of a condition that is joined.** It is dropped if nothing meets it, or else a part
of the plan explains it. -/
structure Outcome (G : Graph Node) (R : Rows Node) (path : List Nat) (scope : Scope) (old : Joined)
    (last : Option Joined) (P : Environment Node → Prop) : Prop where
  dropped : last = none → ∀ σ env, old.Typed G σ → old.Reads σ env → ¬ P env
  joined : ∀ new ∈ last, ∃ added, old.Grows path new added ∧ new.Within scope ∧
    KeepsTypes G R old new added ∧ ∀ env, Explains G R old new added env env (P env)

end Joined

/-! ### Both sides of a path condition -/

/-- The roles of a path condition have numbers in the catalog, the graph obeys them, and both sides
arrive at the same type if the right one starts from `type`. -/
structure PathCondition.Resolves (G : Graph Node) (schema : Schema) (condition : PathCondition)
    (unknown : Label) (type : String) (idsLeft idsRight : List (Int × String)) : Prop where
  left : resolveRoles schema unknown.type condition.rolesLeft = some idsLeft
  right : resolveRoles schema type condition.rolesRight = some idsRight
  obeysLeft : G.Obeys (mentionedInRoles unknown.type condition.rolesLeft)
  obeysRight : G.Obeys (mentionedInRoles type condition.rolesRight)
  ends : endType unknown.type condition.rolesLeft = endType type condition.rolesRight

namespace PathCondition.Resolves

variable {condition : PathCondition} {unknown : Label} {type : String}
  {idsLeft idsRight : List (Int × String)}

/-- A fact from which the left side meets the right one has the type of the unknown. -/
theorem type_of_meet (h : condition.Resolves G schema unknown type idsLeft idsRight)
    (hk : schema.Knows G) {f g : Node} (htype : G.type g = type)
    (hm : (G.rows schema hash).Meet (idsRight.map Prod.fst) (idsLeft.map Prod.fst) g f) :
    G.type f = unknown.type := by
  obtain ⟨top, hr, hl⟩ := hm
  by_cases hne : condition.rolesLeft = []
  · -- without roles on the left side, the unknown is the fact at which the right side arrives
    have hleft := h.left
    have hends := h.ends
    rw [hne] at hleft hends
    cases hleft
    obtain rfl : f = top := hl
    rw [((Graph.climbs_iff_up hk h.right h.obeysRight htype).mpr hr).type_end, ← hends]
    rfl
  · exact Graph.type_of_up hk h.left hne hl

/-- **A path condition is satisfied where the numbers of its roles meet.** -/
theorem holds_iff (h : condition.Resolves G schema unknown type idsLeft idsRight)
    (hk : schema.Knows G) {env : Environment Node} {g : Node}
    (hg : env.lookup condition.labelRight = some g) (htype : G.type g = type) :
    condition.Holds G env unknown ↔ ∃ f, env.lookup unknown.name = some f ∧
      (G.rows schema hash).Meet (idsRight.map Prod.fst) (idsLeft.map Prod.fst) g f := by
  constructor
  · rintro ⟨f, g', top, hf, hg', hl, hr⟩
    obtain rfl : g = g' := Option.some_inj.mp (hg.symm.trans hg')
    rw [htype] at hr
    exact ⟨f, hf, top, (Graph.climbs_iff_up hk h.right h.obeysRight htype).mp hr,
      (Graph.climbs_iff_up hk h.left h.obeysLeft hl.type_start).mp hl⟩
  · rintro ⟨f, hf, hm⟩
    have htf := h.type_of_meet hk htype hm
    obtain ⟨top, hr, hl⟩ := hm
    refine ⟨f, g, top, hf, hg, (Graph.climbs_iff_up hk h.left h.obeysLeft htf).mpr hl, ?_⟩
    rw [htype]
    exact (Graph.climbs_iff_up hk h.right h.obeysRight htype).mpr hr

end PathCondition.Resolves

/-! ### The compilation of a path condition -/

theorem Joined.grows_bind {path : List Nat} {joined : Joined} {plan : Plan} {name : String}
    {fact : Plan.Fact} {added : Plan.Group}
    (h : Plan.Grows path joined.slots joined.plan plan added)
    (hfresh : joined.bindings.lookup name = none)
    (hslot : fact.slot ∈ joined.slots ∨ fact.slot ∈ Plan.ends added.edges)
    (hset : plan.Settles fact.slot) :
    joined.Grows path ⟨plan, (name, fact) :: joined.bindings⟩ added where
  plan := h
  kept label other hl := by
    have hne : label ≠ name := fun he => by
      rw [he, hfresh] at hl
      cases hl
    rwa [List.lookup_cons, beq_eq_false_iff_ne.mpr hne]
  slots s hs := by
    rcases List.mem_cons.mp hs with rfl | hs
    · exact hslot
    · exact Or.inl hs
  settled label other hl := by
    rw [List.lookup_cons] at hl
    split at hl
    · cases hl
      exact Or.inr hset
    · exact Or.inl hl

theorem PathCondition.join_eq_ok {stem : String} {path : List Nat} {unknown : Label}
    {joined : Joined} {condition : PathCondition} {branch : Branch} {plan : Plan}
    (huse : joined.plan.useInput condition.labelRight = some plan)
    (hfresh : joined.bindings.lookup unknown.name = none)
    (h : condition.join schema stem path unknown joined = .ok branch) :
    ∃ right, joined.bindings.lookup condition.labelRight = some right ∧
      (branch.last = none ∧ (resolveRoles schema right.type condition.rolesRight = none ∨
          resolveRoles schema unknown.type condition.rolesLeft = none) ∨
        ∃ middle slot roles final last,
          ascend schema path none plan right.slot right.type condition.rolesRight =
            .ok (some (middle, slot)) ∧
          resolveRoles schema unknown.type condition.rolesLeft = some roles ∧
          descend path none middle slot roles.reverse = .ok (final, last) ∧
          branch.last = some ⟨if path.isEmpty then
              final.addOutput (stem ++ unknown.name) unknown.type last else final,
            (unknown.name, ⟨last, unknown.type⟩) :: joined.bindings⟩) := by
  unfold PathCondition.join at h
  simp only [huse, hfresh, ite_self] at h
  rcases hr : joined.bindings.lookup condition.labelRight with _ | right <;> simp only [hr] at h
  · cases h
  · refine ⟨right, rfl, ?_⟩
    obtain ⟨up, hup, h⟩ := Except.bind_eq_ok_iff.mp h
    rcases up with _ | ⟨middle, slot⟩
    · cases h
      exact Or.inl ⟨rfl, Or.inl (by simpa using (isSome_of_ascend hup).symm)⟩
    · rcases hl : resolveRoles schema unknown.type condition.rolesLeft with _ | roles <;>
        simp only [hl] at h
      · cases h
        exact Or.inl ⟨rfl, Or.inr rfl⟩
      · obtain ⟨⟨final, last⟩, hdown, h⟩ := Except.bind_eq_ok_iff.mp h
        cases h
        exact Or.inr ⟨middle, slot, roles, final, last, hup, rfl, hdown, rfl⟩

theorem exists_chain (R : Rows Node) {path : List Nat} {plan middle final : Plan}
    {first slot last : Nat} {type : String} {rolesRight : List Role} {roles : List (Int × String)}
    (hd : plan.DerivesFrom inputs) (hin : ∀ input ∈ inputs, input.slot ≤ plan.facts.length)
    (hfirst : first ≤ plan.facts.length) (hset : plan.Settles first)
    (hup : ascend schema path none plan first type rolesRight = .ok (some (middle, slot)))
    (hdown : descend path none middle slot roles.reverse = .ok (final, last)) :
    ∃ ids edges, resolveRoles schema type rolesRight = some ids ∧
      Plan.Chain R path plan first final last edges
        (R.Meet (ids.map Prod.fst) (roles.map Prod.fst)) := by
  obtain ⟨ids, edges, hids, hc⟩ :=
    ascend_chain R hup hfirst hset (Plan.slot_le_of_derivesFrom hd hin)
  have hin' : ∀ input ∈ middle.inputs, input.slot ≤ middle.facts.length :=
    Plan.slot_le_of_derivesFrom (hc.grows.derives _ hd) fun input hi =>
      Nat.le_trans (hin input hi) hc.grows.facts
  obtain ⟨edges', hc'⟩ := descend_chain R hdown (hc.last_le hfirst) (hc.settles hset) hin'
  rw [List.map_reverse, List.reverse_reverse] at hc'
  exact ⟨ids, _, hids, hc.trans hfirst hc'⟩

/-- **A path condition is joined as a chain**, unless the catalog does not know one of its roles. -/
theorem PathCondition.chain_of_join (R : Rows Node) (hstart : Plan.StartInputs inputs)
    {stem : String} {path : List Nat} {unknown : Label} {joined : Joined}
    {condition : PathCondition} {branch : Branch} (hs : joined.Sound inputs)
    (hfresh : joined.bindings.lookup unknown.name = none)
    (h : condition.join schema stem path unknown joined = .ok branch) :
    ∃ right, joined.bindings.lookup condition.labelRight = some right ∧
      (branch.last = none ∧ (resolveRoles schema right.type condition.rolesRight = none ∨
          resolveRoles schema unknown.type condition.rolesLeft = none) ∨
        ∃ idsRight idsLeft new last edges,
          resolveRoles schema right.type condition.rolesRight = some idsRight ∧
          resolveRoles schema unknown.type condition.rolesLeft = some idsLeft ∧
          Plan.Chain R path joined.plan right.slot new last edges
            (R.Meet (idsRight.map Prod.fst) (idsLeft.map Prod.fst)) ∧
          new.Settles last ∧
          branch.last = some ⟨new, (unknown.name, ⟨last, unknown.type⟩) :: joined.bindings⟩) := by
  obtain ⟨used, huse, hfacts, hused, hsettled⟩ :=
    @Plan.useInput_grows joined.plan inputs condition.labelRight hstart hs.derives
  obtain ⟨right, hright, hcases⟩ := PathCondition.join_eq_ok huse hfresh h
  refine ⟨right, hright, hcases.imp_right ?_⟩
  rintro ⟨middle, slot, roles, final, last, hup, hleft, hdown, hlast⟩
  have hslot : right.slot ≤ used.facts.length := by
    rw [hfacts]
    exact hs.slots_le _ (Joined.mem_slots_of_lookup hright)
  have hset : used.Settles right.slot := by
    rcases hs.settled _ _ hright with ⟨input, hi, hl, he⟩ | hset
    · exact he ▸ hsettled input hi hl
    · exact (hused path []).settles _ hset
  obtain ⟨ids, edges, hids, hc⟩ := exists_chain R ((hused path []).derives _ hs.derives)
    (hfacts ▸ hs.inputs_le) hslot hset hup hdown
  have hchain := Plan.Chain.of_used (hused path _) hfacts hc
  rw [hlast]
  split_ifs
  · exact ⟨ids, roles, _, last, edges, hids, hleft, hchain.addOutput _ _ _, hc.settles hset, rfl⟩
  · exact ⟨ids, roles, _, last, edges, hids, hleft, hchain, hc.settles hset, rfl⟩

/-! ### What a chain explains -/

namespace Joined

variable {R : Rows Node} {path : List Nat} {scope : Scope} {joined : Joined} {plan : Plan}
  {right : Plan.Fact} {label : String} {unknown : Label} {last : Nat} {edges : List Plan.Edge}
  {leads : Node → Node → Prop}

theorem reads_cons_iff {σ : Nat → Node} {env : Environment Node} {name type : String}
    (hr : joined.Reads σ env) :
    Reads ⟨plan, (name, ⟨last, type⟩) :: joined.bindings⟩ σ env ↔
      env.lookup name = some (σ last) := by
  constructor
  · exact fun h => h name ⟨last, type⟩ List.lookup_cons_self
  · intro h other fact hl
    rw [List.lookup_cons] at hl
    split at hl
    · rename_i he
      cases hl
      rw [beq_iff_eq.mp he, h]
    · exact hr other fact hl

theorem exists_holds_chain (hright : joined.bindings.lookup label = some right)
    (hc : Plan.Chain R path joined.plan right.slot plan last edges leads)
    {parameters : List Parameter} (hp : plan.parameters <+: parameters) {outer : List Nat}
    {σ : Nat → Node} (hs : joined.Sees outer) {env : Environment Node} (hr : joined.Reads σ env) :
    (∃ τ, Plan.Agree outer τ σ ∧ (⟨edges, []⟩ : Plan.Group).Holds R parameters outer τ ∧
        Reads ⟨plan, (unknown.name, ⟨last, unknown.type⟩) :: joined.bindings⟩ τ env) ↔
      ∃ f, env.lookup unknown.name = some f ∧ leads (σ right.slot) f := by
  have hm := hc.means parameters hp outer σ (hs.slots (mem_slots_of_lookup hright)) hs.le
  simp only [Plan.Group.holds_edges]
  constructor
  · rintro ⟨τ, ha, hh, hn⟩
    have hread := (reads_cons_iff (hr.congr (ha.mono hs.slots))).mp hn
    exact ⟨τ last, hread, (hm _).mp ⟨τ, ha, hh, rfl⟩⟩
  · rintro ⟨f, hf, hl⟩
    obtain ⟨τ, ha, hh, rfl⟩ := (hm f).mpr hl
    exact ⟨τ, ha, hh, (reads_cons_iff (hr.congr (ha.mono hs.slots))).mpr hf⟩

theorem Within.cons (hw : joined.Within scope)
    (hu : scope.type? unknown.name = some unknown.type) :
    Within ⟨plan, (unknown.name, ⟨last, unknown.type⟩) :: joined.bindings⟩ scope := by
  intro other fact hl
  rw [List.lookup_cons] at hl
  split at hl
  · rename_i he
    cases hl
    rw [beq_iff_eq.mp he, hu]
  · exact hw other fact hl

theorem Typed.cons {σ : Nat → Node} {name type : String} (ht : joined.Typed G σ)
    (h : G.type (σ last) = type) :
    Typed G ⟨plan, (name, ⟨last, type⟩) :: joined.bindings⟩ σ := by
  intro other fact hl
  rw [List.lookup_cons] at hl
  split at hl
  · cases hl
    exact h
  · exact ht other fact hl

/-- What becomes of a condition that is joined as a chain to the slot of a new label. -/
theorem outcome_of_chain {P : Environment Node → Prop} (hw : joined.Within scope)
    (hu : scope.type? unknown.name = some unknown.type)
    (hfresh : joined.bindings.lookup unknown.name = none)
    (hright : joined.bindings.lookup label = some right)
    (hc : Plan.Chain R path joined.plan right.slot plan last edges leads)
    (hset : plan.Settles last)
    (htype : ∀ g f, G.type g = right.type → leads g f → G.type f = unknown.type)
    (hP : ∀ env g, env.lookup label = some g → G.type g = right.type →
      (P env ↔ ∃ f, env.lookup unknown.name = some f ∧ leads g f)) :
    Outcome G R path scope joined
      (some ⟨plan, (unknown.name, ⟨last, unknown.type⟩) :: joined.bindings⟩) P := by
  have hmem := mem_slots_of_lookup hright
  have hgrows : Plan.Grows path joined.slots joined.plan plan ⟨edges, []⟩ := by
    refine (Plan.Grows.refl joined.plan).trans hc.grows fun s hs => ?_
    rw [List.mem_singleton.mp hs]
    exact Or.inl hmem
  have hslot : last ∈ joined.slots ∨ last ∈ Plan.ends edges :=
    hc.arrives.imp_left fun he => by rwa [he]
  refine ⟨(by rintro ⟨⟩), fun new hm => ?_⟩
  cases hm
  refine ⟨⟨edges, []⟩, grows_bind hgrows hfresh hslot hset, hw.cons hu, ?_, fun env => ?_⟩
  · intro parameters hp outer σ τ hs ht ha hh
    have hleads := (hc.means parameters hp outer σ (hs.slots hmem) hs.le (τ last)).mp
      ⟨τ, ha, Plan.Group.holds_edges.mp hh, rfl⟩
    exact (ht.congr (ha.mono hs.slots)).cons (htype _ _ (ht _ _ hright) hleads)
  · intro parameters hp outer σ hs ht hr
    rw [exists_holds_chain hright hc hp hs hr]
    exact hP env _ (hr _ _ hright) (ht _ _ hright)

end Joined

/-- **A path condition is met exactly where its chain holds.** -/
theorem PathCondition.join_outcome (hk : schema.Knows G) (hstart : Plan.StartInputs inputs)
    {stem : String} {path : List Nat} {scope : Scope} {unknown : Label} {joined : Joined}
    {condition : PathCondition} {branch : Branch} (hs : joined.Sound inputs)
    (hw : joined.Within scope) (hu : scope.type? unknown.name = some unknown.type)
    (hfresh : joined.bindings.lookup unknown.name = none)
    (hc : condition.check scope unknown = .ok ())
    (ho : G.Obeys (condition.mentions scope unknown))
    (h : condition.join schema stem path unknown joined = .ok branch) :
    Joined.Outcome G (G.rows schema hash) path scope joined branch.last
        (fun env => condition.Holds G env unknown) ∧
      ∀ new ∈ branch.last, ∃ fact, new.bindings = (unknown.name, fact) :: joined.bindings := by
  obtain ⟨right, hright, hcases⟩ :=
    PathCondition.chain_of_join (G.rows schema hash) hstart hs hfresh h
  obtain ⟨-, type, htype, hends⟩ := PathCondition.check_eq_ok_iff.mp hc
  obtain rfl : right.type = type := Option.some_inj.mp ((hw _ _ hright).symm.trans htype)
  unfold PathCondition.mentions at ho
  rw [htype, Graph.obeys_append] at ho
  rcases hcases with ⟨hnone, hunknown⟩ | ⟨idsRight, idsLeft, new, last, edges, hids, hleft, hchain,
    hset, hlast⟩
  · -- an unknown role leads nowhere
    rw [hnone]
    refine ⟨⟨fun _ σ env ht hr => ?_, fun _ hm => by cases hm⟩, fun _ hm => by cases hm⟩
    rintro ⟨f, g, top, -, hg, hl, hrt⟩
    obtain rfl : g = σ right.slot := Option.some_inj.mp (hg.symm.trans (hr _ _ hright))
    rw [ht _ _ hright] at hrt
    exact hunknown.elim (fun hn => Graph.not_climbs hk hn hrt) fun hn => Graph.not_climbs hk hn hl
  · have hresolves : condition.Resolves G schema unknown right.type idsLeft idsRight :=
      ⟨hleft, hids, ho.1, ho.2, hends⟩
    rw [hlast]
    refine ⟨Joined.outcome_of_chain hw hu hfresh hright hchain hset ?_ ?_, fun new hm => ?_⟩
    · exact fun g f ht hm => hresolves.type_of_meet hk ht hm
    · exact fun env g hg ht => hresolves.holds_iff hk hg ht
    · cases hm
      exact ⟨_, rfl⟩

end FactGraph
