import FactGraph.Proofs.Plan.Order
import FactGraph.Proofs.Plan.Runs
import FactGraph.Proofs.Specification.Inference

/-! # The number of plans

If a catalog has numbers for everything that a specification mentions, and every match begins with
its path condition, then no branch of the compilation is dropped. So the plans can be counted from
the text: a negative condition completes the plans of its block twice, once as the plans for which
it fails and once inside its group, and one plan in between.

* `Match.exists_joinAll_of_numbers`: what matches come to, with the plans completed on the way.
* `Specification.exists_plans_of_numbers`: the plans of a specification.
* `Specification.length_plans_of_inferCatalog`: an inferred catalog drops nothing. -/

namespace FactGraph

/-! ### Counts -/

mutual

/-- The number of plans that are completed on the way through a condition. -/
def Condition.forks : Condition → Nat
  | .path _ => 0
  | .existential true block => Match.forksAll block
  | .existential false block => 2 * Match.forksAll block + 1

/-- The number of plans that are completed on the way through matches. -/
def Match.forksAll : List Match → Nat
  | [] => 0
  | ⟨_, conditions⟩ :: rest => Condition.forksAll conditions + Match.forksAll rest

def Condition.forksAll : List Condition → Nat
  | [] => 0
  | condition :: rest => condition.forks + Condition.forksAll rest

end

mutual

/-- The number of plans for a projection: those for the matches of a nested one, and deeper ones. -/
def Projection.planCount : Projection → Nat
  | .nested _ block projections => Match.forksAll block + 1 + Projection.planCountAll projections
  | .field _ _ _ | .hash _ _ | .fact _ _ => 0

def Projection.planCountAll : List Projection → Nat
  | [] => 0
  | projection :: rest => projection.planCount + Projection.planCountAll rest

end

/-- The number of plans for a specification. -/
def Specification.planCount (spec : Specification) : Nat :=
  Match.forksAll spec.body + 1 + Projection.planCountAll spec.projections

/-! ### Matches that begin with their paths -/

mutual

/-- Every match in the block of a condition begins with its path condition. -/
def Condition.pathsFirst : Condition → Bool
  | .path _ => true
  | .existential _ block => Match.allPathsFirst block

/-- Every match, in blocks as well, begins with its path condition. -/
def Match.allPathsFirst : List Match → Bool
  | [] => true
  | ⟨_, conditions⟩ :: rest => Condition.startsWithPath conditions &&
      Condition.allPathsFirst conditions && Match.allPathsFirst rest

def Condition.allPathsFirst : List Condition → Bool
  | [] => true
  | condition :: rest => condition.pathsFirst && Condition.allPathsFirst rest

end

mutual

def Projection.pathsFirst : Projection → Bool
  | .nested _ block projections =>
    Match.allPathsFirst block && Projection.allPathsFirst projections
  | .field _ _ _ | .hash _ _ | .fact _ _ => true

def Projection.allPathsFirst : List Projection → Bool
  | [] => true
  | projection :: rest => projection.pathsFirst && Projection.allPathsFirst rest

end

/-- Every match of a specification, at whatever depth, begins with its path condition. -/
def Specification.pathsFirst (spec : Specification) : Bool :=
  Match.allPathsFirst spec.body && Projection.allPathsFirst spec.projections

/-! ### Known roles -/

/-- A catalog has numbers for the roles that are mentioned. -/
def Schema.Numbers (schema : Schema) (mentions : List Mention) : Prop :=
  ∀ role, .role role ∈ mentions → (schema.roleOf role.definingType role.name).isSome = true

variable {schema : Schema} {a b : List Mention}

theorem Schema.numbers_append_iff :
    schema.Numbers (a ++ b) ↔ schema.Numbers a ∧ schema.Numbers b := by
  simp only [Schema.Numbers, List.mem_append, or_imp, forall_and]

theorem Schema.numbers_cons_type_iff {type : String} :
    schema.Numbers (.type type :: a) ↔ schema.Numbers a := by
  simp [Schema.Numbers]

theorem isSome_resolveRoles_of_numbers : ∀ {roles : List Role} {type : String},
    schema.Numbers (mentionedInRoles type roles) → (resolveRoles schema type roles).isSome = true
  | [], _, _ => rfl
  | role :: rest, type, h => by
    rw [mentionedInRoles, Schema.numbers_cons_type_iff] at h
    obtain ⟨id, hid⟩ := Option.isSome_iff_exists.mp
      (h ⟨type, role.name, role.target⟩ List.mem_cons_self)
    obtain ⟨others, ho⟩ := Option.isSome_iff_exists.mp
      (isSome_resolveRoles_of_numbers fun other hm => h other (List.mem_cons_of_mem _ hm))
    simp [resolveRoles, hid, ho]

/-! ### What a join comes to -/

/-- A compilation can go on at the end of a path: exactly the visible labels are bound, to facts of
their types, and the types of all inputs have numbers. -/
structure Joined.Open (joined : Joined) (path : List Nat) (scope : Scope) : Prop where
  bound : ∀ name, (joined.bindings.lookup name).map Plan.Fact.type = scope.type? name
  types : joined.plan.KnowsTypes
  branch : joined.plan.HasBranch path

/-- A branch goes on from a plan to one that extends it, with the labels of a scope, and completes a
number of plans on the way. -/
structure Branch.GoesOn (path : List Nat) (scope : Scope) (count : Nat) (old : Joined)
    (branch : Branch) : Prop where
  completed : branch.completed.length = count
  last : ∃ new, branch.last = some new ∧ old.plan.Extends new.plan ∧ new.Open path scope

variable {stem : String} {path : List Nat} {scope scope' : Scope} {joined : Joined} {plan : Plan}
  {unknown : Label} {branch : Branch} {count count' : Nat}

namespace Joined.Open

theorem extends_plan (h : joined.Open path scope) (he : joined.plan.Extends plan) :
    Joined.Open ⟨plan, joined.bindings⟩ path scope :=
  ⟨h.bound, he.knowsTypes h.types, he.branches path h.branch⟩

theorem bind (h : joined.Open path scope) (he : joined.plan.Extends plan) (slot : Nat) :
    Joined.Open ⟨plan, (unknown.name, ⟨slot, unknown.type⟩) :: joined.bindings⟩ path
      (scope.bind unknown) := by
  refine ⟨fun name => ?_, he.knowsTypes h.types, he.branches path h.branch⟩
  by_cases hn : name = unknown.name
  · subst hn
    simp
  · rw [List.lookup_cons, beq_eq_false_iff_ne.mpr hn, Scope.type?_bind_of_ne hn]
    exact h.bound name

theorem exists_bound (h : joined.Open path scope) {name type : String}
    (ht : scope.type? name = some type) :
    ∃ fact, joined.bindings.lookup name = some fact ∧ fact.type = type := by
  rw [← h.bound] at ht
  exact Option.map_eq_some_iff.mp ht

theorem lookup_eq_none (h : joined.Open path scope) {name : String}
    (ht : scope.type? name = none) : joined.bindings.lookup name = none := by
  rw [← h.bound] at ht
  exact Option.map_eq_none_iff.mp ht

end Joined.Open

namespace Branch

theorem GoesOn.continued (h : joined.Open path scope) :
    (Branch.continued joined).GoesOn path scope 0 joined :=
  ⟨rfl, joined, rfl, .refl _, h⟩

theorem GoesOn.andThen (h : branch.GoesOn path scope count joined)
    {next : Joined → Except PlanError Branch} (hn : ∀ new, new.Open path scope →
      ∃ rest, next new = .ok rest ∧ rest.GoesOn path scope' count' new) :
    ∃ whole, branch.andThen next = .ok whole ∧
      whole.GoesOn path scope' (count + count') joined := by
  obtain ⟨completed, last⟩ := branch
  obtain ⟨rfl, new, rfl, he, ho⟩ := h
  obtain ⟨rest, hr, hcount, final, hf, he', ho'⟩ := hn new ho
  refine ⟨⟨completed ++ rest.completed, rest.last⟩, by simp [Branch.andThen, hr], ?_, final, hf,
    he.trans he', ho'⟩
  rw [List.length_append, hcount]

end Branch

/-- **A path condition whose roles have numbers is joined**, and binds its unknown. -/
theorem PathCondition.exists_join_of_numbers {condition : PathCondition}
    (ho : joined.Open path scope) (hnew : scope.type? unknown.name = none)
    (hc : condition.check (scope.bind unknown) unknown = .ok ())
    (hn : schema.Numbers (condition.mentions (scope.bind unknown) unknown)) :
    ∃ branch, condition.join schema stem path unknown joined = .ok branch ∧
      branch.GoesOn path (scope.bind unknown) 0 joined := by
  obtain ⟨hne, type, htype, -⟩ := PathCondition.check_eq_ok_iff.mp hc
  rw [PathCondition.mentions, htype, Schema.numbers_append_iff] at hn
  rw [Scope.type?_bind_of_ne hne] at htype
  obtain ⟨fact, hfact, rfl⟩ := ho.exists_bound htype
  have hfresh := ho.lookup_eq_none hnew
  obtain ⟨used, huse⟩ := Option.isSome_iff_exists.mp
    (Plan.isSome_useInput condition.labelRight ho.types)
  have hmem : condition.labelRight ∈ joined.bindings.map Prod.fst :=
    (joined.knows_keys _).mp (by rw [hfact]; rfl)
  obtain ⟨branch, hj, hcont⟩ := condition.exists_join joined.knows_keys ho.branch hmem
  obtain ⟨right, hright, hcases⟩ := PathCondition.join_eq_ok huse hfresh hj
  obtain rfl : fact = right := Option.some_inj.mp (hfact.symm.trans hright)
  rcases hcases with ⟨-, hnone | hnone⟩ | ⟨_, _, _, _, last, -, -, -, hlast⟩
  · exact absurd (isSome_resolveRoles_of_numbers hn.2) (Option.not_isSome_iff_eq_none.mpr hnone)
  · exact absurd (isSome_resolveRoles_of_numbers hn.1) (Option.not_isSome_iff_eq_none.mpr hnone)
  · exact ⟨branch, hj, by rw [completed_of_join hj]; rfl, _, hlast, hcont.extends_plan _ hlast,
      ho.bind (hcont.extends_plan _ hlast) last⟩

/-! ### Conditions and matches -/

mutual

theorem Condition.exists_join_of_numbers : ∀ (condition : Condition) {path : List Nat}
    {scope : Scope} {unknown : Label} {joined : Joined}, joined.Open path scope →
    Match.paths ⟨unknown, [condition]⟩ = [] → condition.pathsFirst = true →
    condition.check scope unknown = .ok () → schema.Numbers (condition.mentions scope unknown) →
    ∃ branch, condition.join schema stem path unknown joined = .ok branch ∧
      branch.GoesOn path scope condition.forks joined
  | .path condition, path, scope, unknown, joined, _, hp, _, _, _ => by simp [Match.paths] at hp
  | .existential true block, path, scope, unknown, joined, ho, _, hf, hc, hn => by
    obtain ⟨inner, hc⟩ := Condition.check_existential_eq_ok_iff.mp hc
    rw [Condition.mentions] at hn
    obtain ⟨⟨completed, _⟩, hj, hcompleted, new, rfl, he, -⟩ :=
      Match.exists_joinAll_of_numbers block ho hf hc hn
    exact ⟨_, Except.bind_eq_ok_iff.mpr ⟨_, hj, rfl⟩, hcompleted, _, rfl, he, ho.extends_plan he⟩
  | .existential false block, path, scope, unknown, joined, ho, _, hf, hc, hn => by
    obtain ⟨inner, hc⟩ := Condition.check_existential_eq_ok_iff.mp hc
    rw [Condition.mentions] at hn
    obtain ⟨⟨failed, _⟩, hj, hfailed, new, rfl, -, -⟩ :=
      Match.exists_joinAll_of_numbers block ho hf hc hn
    obtain ⟨opened, path', hg, hopened, hb⟩ := Plan.exists_addGroup ho.branch
    have ho' : Joined.Open ⟨opened, joined.bindings⟩ path' scope :=
      ⟨ho.bound, hopened.knowsTypes ho.types, hb⟩
    obtain ⟨⟨completed, _⟩, hj', hcompleted, last, rfl, he, -⟩ :=
      Match.exists_joinAll_of_numbers block ho' hf hc hn
    refine ⟨_, Except.bind_eq_ok_iff.mpr ⟨_, hj, Except.bind_eq_ok_iff.mpr ⟨_, hg,
      Except.bind_eq_ok_iff.mpr ⟨_, hj', rfl⟩⟩⟩, ?_, _, rfl, hopened.trans he,
      ho.extends_plan (hopened.trans he)⟩
    simp only [List.length_append, hfailed, hcompleted, Option.map_some, Option.toList_some,
      List.length_singleton, Condition.forks]
    omega

theorem Condition.exists_joinAll_of_numbers : ∀ (conditions : List Condition) {path : List Nat}
    {scope : Scope} {unknown : Label} {joined : Joined}, joined.Open path scope →
    Match.paths ⟨unknown, conditions⟩ = [] → Condition.allPathsFirst conditions = true →
    Condition.checkAll scope unknown conditions = .ok () →
    schema.Numbers (Condition.mentionsAll scope unknown conditions) →
    ∃ branch, Condition.joinAll schema stem path unknown joined conditions = .ok branch ∧
      branch.GoesOn path scope (Condition.forksAll conditions) joined
  | [], path, scope, unknown, joined, ho, _, _, _, _ => ⟨_, rfl, .continued ho⟩
  | condition :: rest, path, scope, unknown, joined, ho, hp, hf, hc, hn => by
    obtain ⟨hp, hprest⟩ := Match.paths_cons_eq_nil_iff.mp hp
    obtain ⟨hf, hfrest⟩ := Bool.and_eq_true_iff.mp hf
    obtain ⟨hc, hcrest⟩ := Except.bind_unit_eq_ok_iff.mp hc
    rw [Condition.mentionsAll, Schema.numbers_append_iff] at hn
    obtain ⟨branch, hj, hfirst⟩ := Condition.exists_join_of_numbers condition ho hp hf hc hn.1
    obtain ⟨whole, hw, hwhole⟩ := hfirst.andThen fun new hnew =>
      Condition.exists_joinAll_of_numbers rest hnew hprest hfrest hcrest hn.2
    exact ⟨whole, Except.bind_eq_ok_iff.mpr ⟨branch, hj, hw⟩, hwhole⟩

/-- **Matches whose roles have numbers are joined**, and no branch is dropped. -/
theorem Match.exists_joinAll_of_numbers : ∀ (block : List Match) {path : List Nat}
    {scope scope' : Scope} {joined : Joined}, joined.Open path scope →
    Match.allPathsFirst block = true → Match.checkAll scope block = .ok scope' →
    schema.Numbers (Match.mentionsAll scope block) →
    ∃ branch, Match.joinAll schema stem path joined block = .ok branch ∧
      branch.GoesOn path scope' (Match.forksAll block) joined
  | [], path, scope, scope', joined, ho, _, hc, _ => by
    cases hc
    exact ⟨_, rfl, .continued ho⟩
  | ⟨unknown, []⟩ :: rest, path, scope, scope', joined, ho, hf, hc, hn => by
    simp [Match.allPathsFirst, Condition.startsWithPath] at hf
  | ⟨unknown, .existential _ _ :: _⟩ :: rest, path, scope, scope', joined, ho, hf, hc, hn => by
    simp [Match.allPathsFirst, Condition.startsWithPath] at hf
  | ⟨unknown, .path condition :: others⟩ :: rest, path, scope, scope', joined, ho, hf, hc, hn => by
    obtain ⟨hnew, hone, hc, hcrest⟩ := Match.checkAll_cons_eq_ok_iff.mp hc
    obtain ⟨hc, hcothers⟩ := Except.bind_unit_eq_ok_iff.mp hc
    simp only [Match.allPathsFirst, Condition.allPathsFirst, Bool.and_eq_true] at hf
    obtain ⟨⟨-, -, hfothers⟩, hfrest⟩ := hf
    simp only [Match.mentionsAll, Match.mentions, Condition.mentionsAll,
      Schema.numbers_append_iff, Schema.numbers_cons_type_iff] at hn
    obtain ⟨⟨hn, hnothers⟩, hnrest⟩ := hn
    -- the match has one path condition, which is the first, so the others are existential
    have hothers : Match.paths ⟨unknown, others⟩ = [] := by
      simpa [Match.paths] using hone
    obtain ⟨first, hj, hfirst⟩ := PathCondition.exists_join_of_numbers ho hnew hc hn
    obtain ⟨branch, hb, hbranch⟩ := hfirst.andThen fun new hnew =>
      Condition.exists_joinAll_of_numbers others hnew hothers hfothers hcothers hnothers
    obtain ⟨whole, hw, hwhole⟩ := hbranch.andThen fun new hnew =>
      Match.exists_joinAll_of_numbers rest hnew hfrest hcrest hnrest
    refine ⟨whole, Except.bind_eq_ok_iff.mpr ⟨branch,
      Except.bind_eq_ok_iff.mpr ⟨first, hj, hb⟩, hw⟩, ?_⟩
    rw [Match.forksAll, Condition.forksAll, Condition.forks]
    exact hwhole

end

/-! ### Projections and specifications -/

theorem Match.bindAll_of_checkAll : ∀ {block : List Match} {scope scope' : Scope},
    Match.checkAll scope block = .ok scope' → scope' = scope.bindAll (block.map Match.unknown)
  | [], _, _, h => by
    cases h
    rfl
  | m :: rest, scope, scope', h => by
    obtain ⟨-, -, -, hrest⟩ := Match.checkAll_cons_eq_ok_iff.mp h
    rw [List.map_cons, Scope.bindAll_cons]
    exact Match.bindAll_of_checkAll hrest

mutual

theorem Projection.exists_plans_of_numbers : ∀ (projection : Projection) {stem : String}
    {scope : Scope} {joined : Joined}, joined.Open [] scope → projection.pathsFirst = true →
    projection.check scope = .ok () → schema.Numbers (projection.mentions scope) →
    ∃ plans, projection.plans schema stem joined = .ok plans ∧
      plans.length = projection.planCount
  | .nested name block projections, stem, scope, joined, ho, hf, hc, hn => by
    obtain ⟨inner, hblock, hc⟩ := Except.bind_eq_ok_iff.mp hc
    obtain ⟨hf, hfdeeper⟩ := Bool.and_eq_true_iff.mp hf
    rw [Projection.mentions, Schema.numbers_append_iff, ← Match.bindAll_of_checkAll hblock] at hn
    obtain ⟨⟨completed, _⟩, hj, hcompleted, last, rfl, -, hlast⟩ :=
      @Match.exists_joinAll_of_numbers schema (stem ++ name ++ ".") block [] scope inner joined
        ho hf hblock hn.1
    obtain ⟨deeper, hd, hlength⟩ :=
      Projection.exists_plansAll_of_numbers projections hlast hfdeeper hc hn.2
    refine ⟨completed ++ last.plan :: deeper, Except.bind_eq_ok_iff.mpr ⟨_, hj,
      Except.bind_eq_ok_iff.mpr ⟨_, hd, rfl⟩⟩, ?_⟩
    rw [Projection.planCount, List.length_append, List.length_cons, hcompleted, hlength]
    omega
  | .field _ _ _, _, _, _, _, _, _, _ => ⟨_, rfl, rfl⟩
  | .hash _ _, _, _, _, _, _, _, _ => ⟨_, rfl, rfl⟩
  | .fact _ _, _, _, _, _, _, _, _ => ⟨_, rfl, rfl⟩

theorem Projection.exists_plansAll_of_numbers : ∀ (projections : List Projection) {stem : String}
    {scope : Scope} {joined : Joined}, joined.Open [] scope →
    Projection.allPathsFirst projections = true → Projection.checkAll scope projections = .ok () →
    schema.Numbers (Projection.mentionsAll scope projections) →
    ∃ plans, Projection.plansAll schema stem joined projections = .ok plans ∧
      plans.length = Projection.planCountAll projections
  | [], _, _, _, _, _, _, _ => ⟨_, rfl, rfl⟩
  | projection :: rest, stem, scope, joined, ho, hf, hc, hn => by
    obtain ⟨hf, hfrest⟩ := Bool.and_eq_true_iff.mp hf
    obtain ⟨hc, hcrest⟩ := Except.bind_unit_eq_ok_iff.mp hc
    rw [Projection.mentionsAll, Schema.numbers_append_iff] at hn
    obtain ⟨plans, hp, hlength⟩ := Projection.exists_plans_of_numbers projection ho hf hc hn.1
    obtain ⟨others, hr, hothers⟩ :=
      Projection.exists_plansAll_of_numbers rest ho hfrest hcrest hn.2
    refine ⟨plans ++ others, Except.bind_eq_ok_iff.mpr ⟨_, hp,
      Except.bind_eq_ok_iff.mpr ⟨_, hr, rfl⟩⟩, ?_⟩
    rw [List.length_append, hlength, hothers, Projection.planCountAll]

end

namespace Specification

variable {spec : Specification} {start : List FactReference} {catalog : Catalog}

theorem open_initial (hgiven : Scope.declareAll [] spec.given = .ok scope)
    (ht : ∀ label ∈ spec.given, (schema.factTypeId label.type).isSome = true) :
    (spec.initial schema start).Open [] scope := by
  refine ⟨fun name => ?_, knowsTypes_initial ht, Plan.hasBranch_nil _⟩
  rcases hl : (spec.initial schema start).bindings.lookup name with _ | fact
  · obtain ⟨rfl, -, -⟩ := Scope.declareAll_eq_ok hgiven
    refine (Scope.not_sees_iff.mp fun hs => ?_).symm
    have hbound : ((spec.initial schema start).bindings.lookup name).isSome = true :=
      (spec.knows_initial name).mpr
        ((Scope.sees_bindAll_iff.mp hs).resolve_right (by simp [Scope.Sees, Scope.type?]))
    rw [hl] at hbound
    cases hbound
  · exact (within_initial hgiven _ _ hl).symm

/-- **No branch is dropped if the catalog has numbers for what the specification mentions**: it has
the plans that are counted. -/
theorem exists_plans_of_numbers (hc : spec.check = .ok ()) (hf : spec.pathsFirst = true)
    (ht : ∀ label ∈ spec.given, (schema.factTypeId label.type).isSome = true)
    (hn : schema.Numbers spec.mentions)
    (hs : start.map FactReference.type = spec.given.map Label.type) :
    ∃ plans, spec.plans schema start = .ok plans ∧ plans.length = spec.planCount := by
  obtain ⟨given, hgiven, hc⟩ := Except.bind_eq_ok_iff.mp hc
  obtain ⟨scope, hbody, hc⟩ := Except.bind_eq_ok_iff.mp hc
  obtain ⟨hf, hfprojections⟩ := Bool.and_eq_true_iff.mp hf
  obtain ⟨rfl, -, -⟩ := Scope.declareAll_eq_ok hgiven
  obtain rfl : scope = _ := Match.bindAll_of_checkAll hbody
  rw [mentions, Schema.numbers_append_iff, Schema.numbers_append_iff] at hn
  obtain ⟨⟨-, hn⟩, hnprojections⟩ := hn
  obtain ⟨⟨completed, _⟩, hj, hcompleted, last, rfl, -, hlast⟩ :=
    @Match.exists_joinAll_of_numbers schema "" spec.body [] _ _ (spec.initial schema start)
      (open_initial hgiven ht) hf hbody hn
  obtain ⟨projected, hp, hlength⟩ := Projection.exists_plansAll_of_numbers spec.projections hlast
    hfprojections hc hnprojections
  refine ⟨completed ++ last.plan :: projected, Except.bind_eq_ok_iff.mpr
    ⟨_, checkStart_of_types_eq hs, Except.bind_eq_ok_iff.mpr ⟨_, hj,
      Except.bind_eq_ok_iff.mpr ⟨_, hp, rfl⟩⟩⟩, ?_⟩
  rw [planCount, List.length_append, List.length_cons, hcompleted, hlength]
  omega

theorem numbers_of_inferCatalog (h : spec.inferCatalog = .ok catalog) :
    (∀ type ∈ spec.factTypes, (catalog.schema.factTypeId type).isSome = true) ∧
      catalog.schema.Numbers spec.mentions := by
  refine ⟨fun type hm => ?_, fun role hm => ?_⟩
  · obtain ⟨i, hi⟩ := List.mem_iff_getElem?.mp hm
    exact Option.isSome_iff_exists.mpr ⟨_, factTypeId_of_inferCatalog h hi⟩
  · obtain ⟨i, hi⟩ := List.mem_iff_getElem?.mp (mem_roles_iff.mpr hm)
    exact Option.isSome_iff_exists.mpr ⟨_, roleOf_of_inferCatalog h hi⟩

/-- **With its inferred catalog a specification loses no branch**: if every match begins with its
path condition, start facts of the given types have exactly the plans that are counted. -/
theorem length_plans_of_inferCatalog (ha : spec.Accepted) (hf : spec.pathsFirst = true)
    (hc : spec.inferCatalog = .ok catalog)
    (hs : start.map FactReference.type = spec.given.map Label.type) :
    ∃ plans, spec.plans catalog.schema start = .ok plans ∧ plans.length = spec.planCount := by
  obtain ⟨htypes, hroles⟩ := numbers_of_inferCatalog hc
  exact exists_plans_of_numbers ha.check hf
    (fun label hl => htypes _ (mem_factTypes_iff.mpr (mentions_given hl))) hroles hs

theorem length_plans_membersOfProjects : membersOfProjects.Accepted ∧
    membersOfProjects.pathsFirst = true ∧ ∃ catalog, membersOfProjects.inferCatalog = .ok catalog ∧
      ∃ plans, membersOfProjects.plans catalog.schema [⟨"Root", "r"⟩] = .ok plans ∧
        plans.length = 3 := by
  have ha : membersOfProjects.Accepted := accepted_of_isPrintable rfl rfl
  have hc : membersOfProjects.inferCatalog = .ok
      ⟨[("Root", 1), ("Project", 2), ("Deleted", 3), ("Member", 4)],
        [(2, [("root", 1)]), (3, [("project", 2)]), (4, [("project", 3)])]⟩ := rfl
  exact ⟨ha, rfl, _, hc, length_plans_of_inferCatalog ha rfl hc rfl⟩

end Specification

end FactGraph
