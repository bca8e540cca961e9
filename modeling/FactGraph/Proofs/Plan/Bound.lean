import FactGraph.Proofs.Plan.Branches
import FactGraph.Proofs.Plan.Matches
import FactGraph.Proofs.Plan.Start

/-! # Labels that are bound in time

Conditions are joined in the order in which they stand, and a path condition can only start from a
label that has been bound before it. `Specification.Bound` says that every path condition of a
specification does; the labels of an existential block are forgotten behind it.

* `Match.exists_joinAll`: then matches are joined, whatever the catalog knows.
* `Match.allBound_of_joinAll`: matches that a complete catalog joins are bound in time.
* `Specification.exists_plans`, `Specification.bound_of_plans`: the same of specifications. -/

namespace FactGraph

/-! ### The order of conditions -/

/-- The labels that are bound behind a condition on an unknown. -/
def Condition.binds (unknown : String) (known : List String) : Condition → List String
  | .path _ => unknown :: known
  | .existential _ _ => known

/-- The labels that are bound behind a match. -/
def Match.binds (known : List String) (m : Match) : List String :=
  m.conditions.foldl (Condition.binds m.unknown.name) known

/-- The labels that are bound behind some matches. -/
def Match.bindsAll (known : List String) (block : List Match) : List String :=
  block.foldl Match.binds known

mutual

/-- Every path condition in a condition starts from a label that is bound before it. -/
def Condition.Bound (known : List String) : Condition → Prop
  | .path path => path.labelRight ∈ known
  | .existential _ block => Match.AllBound known block

/-- Every path condition in some matches starts from a label that is bound before it. -/
def Match.AllBound (known : List String) : List Match → Prop
  | [] => True
  | ⟨unknown, conditions⟩ :: rest => Condition.AllBound known unknown.name conditions ∧
      Match.AllBound (Match.binds known ⟨unknown, conditions⟩) rest

/-- Every path condition in some conditions on an unknown starts from a label that is bound before
it. -/
def Condition.AllBound (known : List String) (unknown : String) : List Condition → Prop
  | [] => True
  | condition :: rest => condition.Bound known ∧
      Condition.AllBound (condition.binds unknown known) unknown rest

end

/-! ### What a join comes to -/

/-- A catalog knows every type and every role. -/
def Schema.Complete (schema : Schema) : Prop :=
  ∀ type role, (schema.roleOf type role).isSome = true

/-- The numbers of the types of all inputs are known. -/
def Plan.KnowsTypes (plan : Plan) : Prop := ∀ id ∈ plan.inputs.map Input.typeId, id.isSome = true

/-- The labels that are bound are those of a list. -/
def Joined.Knows (joined : Joined) (known : List String) : Prop :=
  ∀ name, (joined.bindings.lookup name).isSome = true ↔ name ∈ known

theorem Joined.knows_keys (joined : Joined) : joined.Knows (joined.bindings.map Prod.fst) := by
  intro name
  rw [List.lookup_isSome_iff, List.mem_map]
  exact exists_congr fun entry => and_congr_right fun _ => by rw [beq_iff_eq, eq_comm]

/-- A join goes on from a plan with some labels bound, unless a name is missing from the catalog. -/
structure Branch.Continues (schema : Schema) (joined : Joined) (known : List String)
    (branch : Branch) : Prop where
  extends_plan : ∀ last ∈ branch.last, joined.plan.Extends last.plan
  knows : ∀ last ∈ branch.last, last.Knows known
  goesOn : schema.Complete → joined.plan.KnowsTypes → branch.last.isSome = true

variable {schema : Schema} {stem : String} {path : List Nat} {joined : Joined}
  {known known' : List String} {branch : Branch}

theorem Plan.Extends.knowsTypes {old new : Plan} (h : old.Extends new) (ht : old.KnowsTypes) :
    new.KnowsTypes := by
  unfold Plan.KnowsTypes at ht ⊢
  rwa [h.typeIds]

namespace Branch

theorem Continues.of_last {completed : List Plan} {last : Joined}
    (he : joined.plan.Extends last.plan) (hk : last.Knows known) :
    Continues schema joined known ⟨completed, some last⟩ :=
  ⟨fun _ hl => by cases hl; exact he, fun _ hl => by cases hl; exact hk, fun _ _ => rfl⟩

theorem Continues.dropped {completed : List Plan}
    (h : schema.Complete → joined.plan.KnowsTypes → False) :
    Continues schema joined known ⟨completed, none⟩ :=
  ⟨by rintro _ ⟨⟩, by rintro _ ⟨⟩, fun hc ht => (h hc ht).elim⟩

theorem Continues.andThen (h : branch.Continues schema joined known)
    {next : Joined → Except PlanError Branch}
    (hn : ∀ last ∈ branch.last, ∃ rest, next last = .ok rest ∧ rest.Continues schema last known') :
    ∃ whole, branch.andThen next = .ok whole ∧ whole.Continues schema joined known' := by
  obtain ⟨completed, _ | last⟩ := branch
  · exact ⟨_, rfl, by rintro _ ⟨⟩, by rintro _ ⟨⟩, h.goesOn⟩
  · obtain ⟨rest, hr, hrest⟩ := hn last rfl
    have hext := h.extends_plan last rfl
    refine ⟨⟨completed ++ rest.completed, rest.last⟩, by simp [Branch.andThen, hr],
      fun final hf => hext.trans (hrest.extends_plan final hf), hrest.knows, fun hc ht => ?_⟩
    exact hrest.goesOn hc (hext.knowsTypes ht)

end Branch

/-! ### Paths -/

theorem nextSlot_extends {α : Type} (plan : Plan) (type : String) (unknown : Option Plan.Fact)
    (rest : List α) : plan.Extends (nextSlot plan type unknown rest).1 := by
  unfold nextSlot
  split
  · exact .refl plan
  · exact .of_eq rfl rfl

theorem exists_edge {plan : Plan} (hb : plan.HasBranch path) {α : Type} (id : Int) (type : String)
    (unknown : Option Plan.Fact) (rest : List α) (predecessor successor : Nat) : ∃ edged,
      (nextSlot (plan.addParameter (.integer id)).1 type unknown rest).1.addEdge predecessor
        successor (plan.addParameter (.integer id)).2 path = .ok edged ∧ plan.Extends edged := by
  have hparameter : plan.Extends (plan.addParameter (.integer id)).1 := .of_eq rfl rfl
  have hslot := hparameter.trans (nextSlot_extends _ type unknown rest)
  obtain ⟨edged, he, hedge⟩ := Plan.exists_addEdge (hslot.branches path hb) predecessor successor
    (plan.addParameter (.integer id)).2
  exact ⟨edged, he, hslot.trans hedge⟩

theorem exists_ascend {unknown : Option Plan.Fact} : ∀ {roles : List Role} {plan : Plan}
    {slot : Nat} {type : String}, plan.HasBranch path → ∃ result,
      ascend schema path unknown plan slot type roles = .ok result ∧
        (∀ r ∈ result, plan.Extends r.1) ∧ (schema.Complete → result.isSome = true)
  | [], plan, slot, _, _ => ⟨_, rfl, fun r hr => by cases hr; exact .refl plan, fun _ => rfl⟩
  | role :: rest, plan, slot, type, hb => by
    rw [ascend]
    rcases hr : schema.roleOf type role.name with _ | id
    · exact ⟨none, rfl, by rintro _ ⟨⟩, fun hc => by simpa [hr] using hc type role.name⟩
    · obtain ⟨edged, he, hedge⟩ := exists_edge hb id role.target unknown rest
        (nextSlot (plan.addParameter (.integer id)).1 role.target unknown rest).2 slot
      obtain ⟨result, hresult, hext, hsome⟩ := exists_ascend (hedge.branches path hb)
      exact ⟨result, Except.bind_eq_ok_iff.mpr ⟨edged, he, hresult⟩,
        fun r hr => hedge.trans (hext r hr), hsome⟩

theorem exists_descend {unknown : Option Plan.Fact} : ∀ {roles : List (Int × String)}
    {plan : Plan} {slot : Nat}, plan.HasBranch path → ∃ result,
      descend path unknown plan slot roles = .ok result ∧ plan.Extends result.1
  | [], plan, slot, _ => ⟨_, rfl, .refl plan⟩
  | (id, type) :: rest, plan, slot, hb => by
    obtain ⟨edged, he, hedge⟩ := exists_edge hb id type unknown rest slot
      (nextSlot (plan.addParameter (.integer id)).1 type unknown rest).2
    obtain ⟨result, hresult, hext⟩ := exists_descend (hedge.branches path hb)
    exact ⟨result, Except.bind_eq_ok_iff.mpr ⟨edged, he, hresult⟩, hedge.trans hext⟩

theorem isSome_resolveRoles (hc : schema.Complete) : ∀ (roles : List Role) (type : String),
    (resolveRoles schema type roles).isSome = true
  | [], _ => rfl
  | role :: rest, type => by
    obtain ⟨id, hid⟩ := Option.isSome_iff_exists.mp (hc type role.name)
    obtain ⟨others, ho⟩ := Option.isSome_iff_exists.mp (isSome_resolveRoles hc rest role.target)
    simp [resolveRoles, hid, ho]

/-- **A path condition from a label that is bound is joined.** -/
theorem PathCondition.exists_join {unknown : Label} {condition : PathCondition}
    (hk : joined.Knows known) (hb : joined.plan.HasBranch path)
    (hmem : condition.labelRight ∈ known) :
    ∃ branch, condition.join schema stem path unknown joined = .ok branch ∧
      branch.Continues schema joined (unknown.name :: known) := by
  unfold PathCondition.join
  rcases hu : joined.plan.useInput condition.labelRight with _ | plan
  · have hnone : ¬ joined.plan.KnowsTypes := fun ht => by
      simpa [hu] using Plan.isSome_useInput condition.labelRight ht
    exact ⟨_, rfl, .dropped fun _ ht => hnone ht⟩
  have hused := Plan.useInput_extends hu
  obtain ⟨right, hright⟩ := Option.isSome_iff_exists.mp ((hk _).mpr hmem)
  simp only [hright]
  generalize hbound : joined.bindings.lookup unknown.name = bound
  obtain ⟨result, ha, hasc, hsome⟩ := @exists_ascend schema path
    (if condition.rolesLeft.isEmpty then bound else none) condition.rolesRight plan right.slot
    right.type (hused.branches path hb)
  rcases result with _ | ⟨plan', slot⟩
  · exact ⟨_, Except.bind_eq_ok_iff.mpr ⟨_, ha, rfl⟩, .dropped fun hc _ => by simpa using hsome hc⟩
  have hup := hused.trans (hasc _ rfl)
  rcases hr : resolveRoles schema unknown.type condition.rolesLeft with _ | roles
  · exact ⟨_, Except.bind_eq_ok_iff.mpr ⟨_, ha, rfl⟩, .dropped fun hc _ => by
      simpa [hr] using isSome_resolveRoles hc condition.rolesLeft unknown.type⟩
  obtain ⟨⟨plan'', slot'⟩, hd, hdesc⟩ := @exists_descend path bound roles.reverse plan' slot
    (hup.branches path hb)
  have hdown := hup.trans hdesc
  rcases bound with _ | fact
  · -- the unknown is bound to the slot at the end of the path
    refine ⟨_, Except.bind_eq_ok_iff.mpr ⟨_, ha, Except.bind_eq_ok_iff.mpr ⟨_, hd, rfl⟩⟩, ?_⟩
    refine .of_last (hdown.trans ?_) fun name => ?_
    · split_ifs
      · exact .of_eq rfl rfl
      · exact .refl _
    · rw [List.lookup_cons, List.mem_cons, ← hk name]
      by_cases hn : name = unknown.name
      · simp [hn]
      · simp [hn, beq_eq_false_iff_ne.mpr hn]
  · -- an unknown that was bound before stays as it is
    refine ⟨_, Except.bind_eq_ok_iff.mpr ⟨_, ha, Except.bind_eq_ok_iff.mpr ⟨_, hd, rfl⟩⟩, ?_⟩
    refine .of_last hdown fun name => ?_
    rw [List.mem_cons, ← hk name, iff_or_self]
    rintro rfl
    simp [hbound]

/-! ### Conditions and matches -/

mutual

theorem Condition.exists_join : ∀ (condition : Condition) {path : List Nat} {unknown : Label}
    {joined : Joined} {known : List String}, joined.Knows known → joined.plan.HasBranch path →
    condition.Bound known → ∃ branch, condition.join schema stem path unknown joined = .ok branch ∧
      branch.Continues schema joined (condition.binds unknown.name known)
  | .path condition, path, unknown, joined, known, hk, hb, hmem =>
    condition.exists_join hk hb hmem
  | .existential true block, path, unknown, joined, known, hk, hb, hbound => by
    obtain ⟨⟨completed, last⟩, hf, hfound⟩ := Match.exists_joinAll block hk hb hbound
    refine ⟨_, Except.bind_eq_ok_iff.mpr ⟨_, hf, rfl⟩, ?_⟩
    rcases last with _ | last
    · exact .dropped fun hc ht => by simpa using hfound.goesOn hc ht
    · exact .of_last (hfound.extends_plan last rfl) hk
  | .existential false block, path, unknown, joined, known, hk, hb, hbound => by
    obtain ⟨failing, hf, -⟩ := Match.exists_joinAll block hk hb hbound
    obtain ⟨opened, path', hg, hopened, hb'⟩ := Plan.exists_addGroup hb
    obtain ⟨⟨completed, last⟩, ha, habsent⟩ :=
      @Match.exists_joinAll block path' ⟨opened, joined.bindings⟩ known hk hb' hbound
    rcases last with _ | last
    · exact ⟨_, Except.bind_eq_ok_iff.mpr ⟨_, hf, Except.bind_eq_ok_iff.mpr ⟨_, hg,
        Except.bind_eq_ok_iff.mpr ⟨_, ha, rfl⟩⟩⟩, .of_last (.refl _) hk⟩
    · exact ⟨_, Except.bind_eq_ok_iff.mpr ⟨_, hf, Except.bind_eq_ok_iff.mpr ⟨_, hg,
        Except.bind_eq_ok_iff.mpr ⟨_, ha, rfl⟩⟩⟩,
        .of_last (hopened.trans (habsent.extends_plan last rfl)) hk⟩

theorem Condition.exists_joinAll : ∀ (conditions : List Condition) {path : List Nat}
    {unknown : Label} {joined : Joined} {known : List String}, joined.Knows known →
    joined.plan.HasBranch path → Condition.AllBound known unknown.name conditions →
    ∃ branch, Condition.joinAll schema stem path unknown joined conditions = .ok branch ∧
      branch.Continues schema joined (conditions.foldl (Condition.binds unknown.name) known)
  | [], path, unknown, joined, known, hk, _, _ => ⟨_, rfl, .of_last (.refl _) hk⟩
  | condition :: rest, path, unknown, joined, known, hk, hb, ⟨hbound, hrest⟩ => by
    obtain ⟨branch, hj, hfirst⟩ := Condition.exists_join condition hk hb hbound
    obtain ⟨whole, hw, hwhole⟩ := hfirst.andThen fun last hl =>
      Condition.exists_joinAll rest (hfirst.knows last hl)
        ((hfirst.extends_plan last hl).branches path hb) hrest
    exact ⟨whole, Except.bind_eq_ok_iff.mpr ⟨branch, hj, hw⟩, hwhole⟩

/-- **Matches whose paths start from labels that are bound in time are joined.** -/
theorem Match.exists_joinAll : ∀ (block : List Match) {path : List Nat} {joined : Joined}
    {known : List String}, joined.Knows known → joined.plan.HasBranch path →
    Match.AllBound known block →
    ∃ branch, Match.joinAll schema stem path joined block = .ok branch ∧
      branch.Continues schema joined (Match.bindsAll known block)
  | [], path, joined, known, hk, _, _ => ⟨_, rfl, .of_last (.refl _) hk⟩
  | ⟨unknown, conditions⟩ :: rest, path, joined, known, hk, hb, ⟨hbound, hrest⟩ => by
    obtain ⟨branch, hj, hfirst⟩ := Condition.exists_joinAll conditions hk hb hbound
    obtain ⟨whole, hw, hwhole⟩ := hfirst.andThen fun last hl =>
      Match.exists_joinAll rest (hfirst.knows last hl)
        ((hfirst.extends_plan last hl).branches path hb) hrest
    exact ⟨whole, Except.bind_eq_ok_iff.mpr ⟨branch, hj, hw⟩, hwhole⟩

end

/-! ### What a complete catalog joins -/

theorem Branch.goesOn_of_andThen {first whole : Branch}
    {next : Joined → Except PlanError Branch} {join : Except PlanError Branch}
    (hc : schema.Complete) (ht : joined.plan.KnowsTypes)
    (he : ∃ branch, join = .ok branch ∧ branch.Continues schema joined known)
    (hj : join = .ok first) (h : first.andThen next = .ok whole) :
    ∃ last ∈ first.last, first.Continues schema joined known ∧ ∃ found, next last = .ok found := by
  obtain ⟨branch, hj', hfirst⟩ := he
  obtain rfl : branch = first := Except.ok.inj (hj'.symm.trans hj)
  obtain ⟨last, hl⟩ := Option.isSome_iff_exists.mp (hfirst.goesOn hc ht)
  obtain ⟨found, hf, -⟩ := (Branch.andThen_eq_ok h).2 last hl
  exact ⟨last, hl, hfirst, found, hf⟩

theorem PathCondition.mem_of_join {unknown : Label} {condition : PathCondition}
    (hk : joined.Knows known) (ht : joined.plan.KnowsTypes)
    (h : condition.join schema stem path unknown joined = .ok branch) :
    condition.labelRight ∈ known := by
  unfold PathCondition.join at h
  obtain ⟨plan, hu⟩ := Option.isSome_iff_exists.mp (Plan.isSome_useInput condition.labelRight ht)
  rw [hu] at h
  by_contra hmem
  have hnone : joined.bindings.lookup condition.labelRight = none :=
    Option.not_isSome_iff_eq_none.mp ((hk condition.labelRight).not.mpr hmem)
  simp [hnone] at h

mutual

theorem Condition.bound_of_join (hc : schema.Complete) : ∀ (condition : Condition)
    {path : List Nat} {unknown : Label} {joined : Joined} {known : List String} {branch : Branch},
    joined.Knows known → joined.plan.KnowsTypes → joined.plan.HasBranch path →
    condition.join schema stem path unknown joined = .ok branch → condition.Bound known
  | .path condition, path, unknown, joined, known, branch, hk, ht, _, h =>
    condition.mem_of_join hk ht h
  | .existential true block, path, unknown, joined, known, branch, hk, ht, hb, h => by
    obtain ⟨inner, hf, -⟩ := Except.bind_eq_ok_iff.mp h
    exact Match.allBound_of_joinAll hc block hk ht hb hf
  | .existential false block, path, unknown, joined, known, branch, hk, ht, hb, h => by
    obtain ⟨failing, hf, -⟩ := Except.bind_eq_ok_iff.mp h
    exact Match.allBound_of_joinAll hc block hk ht hb hf

theorem Condition.allBound_of_joinAll (hc : schema.Complete) : ∀ (conditions : List Condition)
    {path : List Nat} {unknown : Label} {joined : Joined} {known : List String} {branch : Branch},
    joined.Knows known → joined.plan.KnowsTypes → joined.plan.HasBranch path →
    Condition.joinAll schema stem path unknown joined conditions = .ok branch →
    Condition.AllBound known unknown.name conditions
  | [], _, _, _, _, _, _, _, _, _ => trivial
  | condition :: rest, path, unknown, joined, known, branch, hk, ht, hb, h => by
    obtain ⟨first, hj, h⟩ := Except.bind_eq_ok_iff.mp h
    have hbound := Condition.bound_of_join hc condition hk ht hb hj
    refine ⟨hbound, ?_⟩
    obtain ⟨last, hl, hfirst, found, hf⟩ := Branch.goesOn_of_andThen hc ht
      (Condition.exists_join condition hk hb hbound) hj h
    exact Condition.allBound_of_joinAll hc rest (hfirst.knows last hl)
      ((hfirst.extends_plan last hl).knowsTypes ht)
      ((hfirst.extends_plan last hl).branches path hb) hf

/-- **The matches that a complete catalog joins are bound in time.** -/
theorem Match.allBound_of_joinAll (hc : schema.Complete) : ∀ (block : List Match)
    {path : List Nat} {joined : Joined} {known : List String} {branch : Branch},
    joined.Knows known → joined.plan.KnowsTypes → joined.plan.HasBranch path →
    Match.joinAll schema stem path joined block = .ok branch → Match.AllBound known block
  | [], _, _, _, _, _, _, _, _ => trivial
  | ⟨unknown, conditions⟩ :: rest, path, joined, known, branch, hk, ht, hb, h => by
    obtain ⟨first, hj, h⟩ := Except.bind_eq_ok_iff.mp h
    have hbound := Condition.allBound_of_joinAll hc conditions hk ht hb hj
    refine ⟨hbound, ?_⟩
    obtain ⟨last, hl, hfirst, found, hf⟩ := Branch.goesOn_of_andThen hc ht
      (Condition.exists_joinAll conditions hk hb hbound) hj h
    exact Match.allBound_of_joinAll hc rest (hfirst.knows last hl)
      ((hfirst.extends_plan last hl).knowsTypes ht)
      ((hfirst.extends_plan last hl).branches path hb) hf

end

/-! ### Projections -/

mutual

/-- Every path condition in a projection starts from a label that is bound before it. -/
def Projection.Bound (known : List String) : Projection → Prop
  | .nested _ block projections => Match.AllBound known block ∧
      Projection.AllBound (Match.bindsAll known block) projections
  | .field _ _ _ | .hash _ _ | .fact _ _ => True

/-- Every path condition in some projections starts from a label that is bound before it. -/
def Projection.AllBound (known : List String) : List Projection → Prop
  | [] => True
  | projection :: rest => projection.Bound known ∧ Projection.AllBound known rest

end

mutual

/-- A projection whose paths start from labels that are bound in time has plans. -/
theorem Projection.exists_plans : ∀ (projection : Projection) {stem : String} {joined : Joined}
    {known : List String}, joined.Knows known → projection.Bound known →
    ∃ plans, projection.plans schema stem joined = .ok plans
  | .nested name block projections, stem, joined, known, hk, ⟨hbound, hdeeper⟩ => by
    obtain ⟨⟨completed, last⟩, hj, hfound⟩ :=
      @Match.exists_joinAll schema (stem ++ name ++ ".") block [] joined known hk
        joined.plan.hasBranch_nil hbound
    rw [Projection.plans]
    rcases last with _ | last
    · exact ⟨_, Except.bind_eq_ok_iff.mpr ⟨_, hj, rfl⟩⟩
    · obtain ⟨plans, hp⟩ := Projection.exists_plansAll projections (hfound.knows last rfl) hdeeper
      exact ⟨_, Except.bind_eq_ok_iff.mpr ⟨_, hj, Except.bind_eq_ok_iff.mpr ⟨_, hp, rfl⟩⟩⟩
  | .field _ _ _, _, _, _, _, _ => ⟨_, rfl⟩
  | .hash _ _, _, _, _, _, _ => ⟨_, rfl⟩
  | .fact _ _, _, _, _, _, _ => ⟨_, rfl⟩

theorem Projection.exists_plansAll : ∀ (projections : List Projection) {stem : String}
    {joined : Joined} {known : List String}, joined.Knows known →
    Projection.AllBound known projections →
    ∃ plans, Projection.plansAll schema stem joined projections = .ok plans
  | [], _, _, _, _, _ => ⟨_, rfl⟩
  | projection :: rest, stem, joined, known, hk, ⟨hbound, hrest⟩ => by
    obtain ⟨plans, hp⟩ := Projection.exists_plans projection hk hbound
    obtain ⟨others, ho⟩ := Projection.exists_plansAll rest hk hrest
    exact ⟨_, Except.bind_eq_ok_iff.mpr ⟨_, hp, Except.bind_eq_ok_iff.mpr ⟨_, ho, rfl⟩⟩⟩

end

theorem Match.exists_last_of_joinAll (hc : schema.Complete) {block : List Match}
    (hk : joined.Knows known) (ht : joined.plan.KnowsTypes)
    (h : Match.joinAll schema stem [] joined block = .ok branch) : Match.AllBound known block ∧
      ∃ last ∈ branch.last, last.Knows (Match.bindsAll known block) ∧ last.plan.KnowsTypes := by
  have hb := joined.plan.hasBranch_nil
  have hbound := Match.allBound_of_joinAll hc block hk ht hb h
  obtain ⟨found, hf, hcont⟩ := @Match.exists_joinAll schema stem block [] joined known hk hb hbound
  obtain rfl : found = branch := Except.ok.inj (hf.symm.trans h)
  obtain ⟨last, hl⟩ := Option.isSome_iff_exists.mp (hcont.goesOn hc ht)
  exact ⟨hbound, last, hl, hcont.knows last hl, (hcont.extends_plan last hl).knowsTypes ht⟩

mutual

theorem Projection.bound_of_plans (hc : schema.Complete) : ∀ (projection : Projection)
    {stem : String} {joined : Joined} {known : List String} {plans : List Plan},
    joined.Knows known → joined.plan.KnowsTypes →
    projection.plans schema stem joined = .ok plans → projection.Bound known
  | .nested name block projections, stem, joined, known, plans, hk, ht, h => by
    rw [Projection.plans] at h
    obtain ⟨⟨completed, _⟩, hj, h⟩ := Except.bind_eq_ok_iff.mp h
    obtain ⟨hbound, last, rfl, hk', ht'⟩ := Match.exists_last_of_joinAll hc hk ht hj
    obtain ⟨deeper, hd, -⟩ := Except.bind_eq_ok_iff.mp h
    exact ⟨hbound, Projection.allBound_of_plansAll hc projections hk' ht' hd⟩
  | .field _ _ _, _, _, _, _, _, _, _ => trivial
  | .hash _ _, _, _, _, _, _, _, _ => trivial
  | .fact _ _, _, _, _, _, _, _, _ => trivial

theorem Projection.allBound_of_plansAll (hc : schema.Complete) : ∀ (projections : List Projection)
    {stem : String} {joined : Joined} {known : List String} {plans : List Plan},
    joined.Knows known → joined.plan.KnowsTypes →
    Projection.plansAll schema stem joined projections = .ok plans →
    Projection.AllBound known projections
  | [], _, _, _, _, _, _, _ => trivial
  | projection :: rest, stem, joined, known, plans, hk, ht, h => by
    obtain ⟨first, hp, h⟩ := Except.bind_eq_ok_iff.mp h
    obtain ⟨others, ho, -⟩ := Except.bind_eq_ok_iff.mp h
    exact ⟨Projection.bound_of_plans hc projection hk ht hp,
      Projection.allBound_of_plansAll hc rest hk ht ho⟩

end

/-! ### Specifications -/

namespace Specification

variable {spec : Specification} {start : List FactReference}

/-- Every path condition in a specification starts from a label that is bound before it. -/
def Bound (spec : Specification) : Prop :=
  Match.AllBound (spec.given.map Label.name) spec.body ∧
    Projection.AllBound (Match.bindsAll (spec.given.map Label.name) spec.body) spec.projections

theorem checkStart_of_types_eq
    (h : start.map FactReference.type = spec.given.map Label.type) :
    spec.checkStart start = .ok () := by
  have hlen : start.length = spec.given.length := by
    simpa using congrArg List.length h
  have htypes : ∀ entry ∈ (start.zip spec.given).zipIdx, entry.1.1.type = entry.1.2.type := by
    rintro ⟨⟨fact, label⟩, i⟩ hm
    obtain ⟨hf, hl⟩ := List.getElem?_zip_eq_some.mp (List.mk_mem_zipIdx_iff_getElem?.mp hm)
    have hi := congrArg (fun types : List String => types[i]?) h
    simpa [List.getElem?_map, hf, hl] using hi
  unfold checkStart
  rw [if_neg (not_not.mpr hlen),
    List.find?_eq_none.mpr fun entry hm => by simpa using htypes entry hm]

theorem knows_initial (spec : Specification) :
    (spec.initial schema start).Knows (spec.given.map Label.name) := by
  intro name
  have hkeys : (spec.initial schema start).bindings.map Prod.fst =
      (spec.given.map Label.name).reverse := by
    rw [initial, List.map_reverse, List.map_fst_zip (by simp [givenFacts])]
  rw [← List.mem_reverse, ← hkeys]
  exact Joined.knows_keys _ name

theorem knowsTypes_initial
    (h : ∀ label ∈ spec.given, (schema.factTypeId label.type).isSome = true) :
    (spec.initial schema start).plan.KnowsTypes := by
  intro id hid
  obtain ⟨input, hi, rfl⟩ := List.mem_map.mp hid
  obtain ⟨i, label, ref, hl, -, rfl⟩ := mem_inputs hi
  exact h label (List.mem_of_getElem? hl)

/-- **A specification whose paths start from labels that are bound in time has plans.** -/
theorem exists_plans (hb : spec.Bound)
    (hs : start.map FactReference.type = spec.given.map Label.type) :
    ∃ plans, spec.plans schema start = .ok plans := by
  obtain ⟨⟨completed, last⟩, hj, hfound⟩ :=
    @Match.exists_joinAll schema "" spec.body [] (spec.initial schema start) _
      spec.knows_initial (Plan.hasBranch_nil _) hb.1
  have hcheck := checkStart_of_types_eq hs
  unfold plans
  rcases last with _ | last
  · exact ⟨_, Except.bind_eq_ok_iff.mpr ⟨_, hcheck, Except.bind_eq_ok_iff.mpr ⟨_, hj, rfl⟩⟩⟩
  · obtain ⟨plans, hp⟩ := Projection.exists_plansAll spec.projections (hfound.knows last rfl) hb.2
    exact ⟨_, Except.bind_eq_ok_iff.mpr ⟨_, hcheck, Except.bind_eq_ok_iff.mpr ⟨_, hj,
      Except.bind_eq_ok_iff.mpr ⟨_, hp, rfl⟩⟩⟩⟩

/-- **A specification for which a complete catalog has plans is bound in time.** -/
theorem bound_of_plans (hc : schema.Complete) {plans : List Plan}
    (h : spec.plans schema start = .ok plans) : spec.Bound := by
  unfold Specification.plans at h
  obtain ⟨_, -, h⟩ := Except.bind_eq_ok_iff.mp h
  obtain ⟨⟨completed, _⟩, hj, h⟩ := Except.bind_eq_ok_iff.mp h
  have htypes : (spec.initial schema start).plan.KnowsTypes := knowsTypes_initial
    fun label _ => Option.isSome_of_isSome_bind (hc label.type "")
  obtain ⟨hbound, last, rfl, hk, ht⟩ :=
    Match.exists_last_of_joinAll hc spec.knows_initial htypes hj
  obtain ⟨projected, hp, -⟩ := Except.bind_eq_ok_iff.mp h
  exact ⟨hbound, Projection.allBound_of_plansAll hc spec.projections hk ht hp⟩

end Specification

end FactGraph
