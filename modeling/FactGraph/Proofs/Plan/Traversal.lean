import FactGraph.Proofs.Plan.Runs
import FactGraph.Specification.Vocabulary

/-! # Roles that plans traverse

A plan knows the role of an edge by its number only. A traced compilation joins the same plans, and
keeps beside each of them the roles that its edges traverse, in the order of the edges' numbers: a
path condition traverses the roles of its right side upwards from the type of its right label, and
then the roles of its left side downwards to its unknown.

* `Specification.map_tracedPlans`: a traced compilation joins the plans of the specification.
* `Specification.every_tracedPlans`: what path conditions and new groups preserve holds of every
  plan. -/

namespace FactGraph

/-! ### Traversed roles -/

/-- The roles that lead up from a type. -/
def rolesFrom (start : String) : List Role → List RoleDefinition
  | [] => []
  | role :: rest => ⟨start, role.name, role.target⟩ :: rolesFrom role.target rest

/-- The roles that a path condition traverses from its right label to its unknown. -/
def PathCondition.traversed (bindings : Bindings) (unknown : Label) (condition : PathCondition) :
    List RoleDefinition :=
  match bindings.lookup condition.labelRight with
  | none => []
  | some right =>
    rolesFrom right.type condition.rolesRight ++
      (rolesFrom unknown.type condition.rolesLeft).reverse

/-- A plan with the roles that its edges traverse, in the order of the edges' numbers. -/
structure TracedPlan where
  plan : Plan
  roles : List RoleDefinition
  deriving DecidableEq

/-- What a traced compilation goes on from. -/
structure Traced where
  joined : Joined
  roles : List RoleDefinition

/-- Where a traced compilation has come. -/
structure TracedBranch where
  completed : List TracedPlan
  last : Option Traced

/-- The plan in which a traced compilation has bound its labels. -/
def Traced.toPlan (traced : Traced) : TracedPlan := ⟨traced.joined.plan, traced.roles⟩

namespace TracedBranch

/-- The branch that goes on without completing a plan. -/
def continued (traced : Traced) : TracedBranch := ⟨[], some traced⟩

/-- Goes on with a branch, if it is not dropped. -/
def andThen (branch : TracedBranch) (next : Traced → Except PlanError TracedBranch) :
    Except PlanError TracedBranch :=
  match branch.last with
  | none => .ok branch
  | some traced => do
    let rest ← next traced
    return ⟨branch.completed ++ rest.completed, rest.last⟩

/-- The plans at which a branch arrives. -/
def plans (branch : TracedBranch) : List TracedPlan :=
  branch.completed ++ (branch.last.map Traced.toPlan).toList

/-- A branch without the roles. -/
def toBranch (branch : TracedBranch) : Branch :=
  ⟨branch.completed.map TracedPlan.plan, branch.last.map Traced.joined⟩

end TracedBranch

/-! ### Traced compilation -/

mutual

/-- Joins a condition on an unknown, and traces the roles. -/
def Condition.trace (schema : Schema) (stem : String) (path : List Nat) (unknown : Label)
    (traced : Traced) : Condition → Except PlanError TracedBranch
  | .path condition => do
    let branch ← condition.join schema stem path unknown traced.joined
    let roles := traced.roles ++ condition.traversed traced.joined.bindings unknown
    return ⟨[], branch.last.map fun last => ⟨last, roles⟩⟩
  | .existential true block => do
    let inner ← Match.traceAll schema stem path traced block
    return ⟨inner.completed, inner.last.map fun last =>
      ⟨⟨last.joined.plan, traced.joined.bindings⟩, last.roles⟩⟩
  | .existential false block => do
    let failing ← Match.traceAll schema stem path traced block
    let (opened, inner) ← traced.joined.plan.addGroup path
    let absent ← Match.traceAll schema stem inner
      ⟨⟨opened, traced.joined.bindings⟩, traced.roles⟩ block
    match absent.last with
    | none => return .continued traced
    | some last =>
      return ⟨failing.plans ++ absent.completed,
        some ⟨⟨last.joined.plan, traced.joined.bindings⟩, last.roles⟩⟩

/-- Joins matches one after the other, and traces the roles. -/
def Match.traceAll (schema : Schema) (stem : String) (path : List Nat) (traced : Traced) :
    List Match → Except PlanError TracedBranch
  | [] => .ok (.continued traced)
  | ⟨unknown, conditions⟩ :: rest => do
    let branch ← Condition.traceAll schema stem path unknown traced conditions
    branch.andThen fun next => Match.traceAll schema stem path next rest

/-- Joins conditions on an unknown one after the other, and traces the roles. -/
def Condition.traceAll (schema : Schema) (stem : String) (path : List Nat) (unknown : Label)
    (traced : Traced) : List Condition → Except PlanError TracedBranch
  | [] => .ok (.continued traced)
  | condition :: rest => do
    let branch ← condition.trace schema stem path unknown traced
    branch.andThen fun next => Condition.traceAll schema stem path unknown next rest

end

mutual

/-- The plans for a projection with the roles that they traverse. -/
def Projection.tracedPlans (schema : Schema) (stem : String) (traced : Traced) :
    Projection → Except PlanError (List TracedPlan)
  | .nested name block projections => do
    let stem := stem ++ name ++ "."
    let branch ← Match.traceAll schema stem [] traced block
    match branch.last with
    | none => return branch.completed
    | some last =>
      let deeper ← Projection.tracedPlansAll schema stem last projections
      return branch.completed ++ last.toPlan :: deeper
  | _ => .ok []

/-- The plans for projections with the roles that they traverse. -/
def Projection.tracedPlansAll (schema : Schema) (stem : String) (traced : Traced) :
    List Projection → Except PlanError (List TracedPlan)
  | [] => .ok []
  | projection :: rest => do
    let plans ← projection.tracedPlans schema stem traced
    return plans ++ (← Projection.tracedPlansAll schema stem traced rest)

end

/-- **The plans that answer a specification, with the roles that their edges traverse.** -/
def Specification.tracedPlans (spec : Specification) (schema : Schema)
    (start : List FactReference) : Except PlanError (List TracedPlan) := do
  spec.checkStart start
  let branch ← Match.traceAll schema "" [] ⟨spec.initial schema start, []⟩ spec.body
  match branch.last with
  | none => return branch.completed
  | some last =>
    let projected ← Projection.tracedPlansAll schema "" last spec.projections
    return branch.completed ++ last.toPlan :: projected

/-! ### The plans are the same -/

variable {schema : Schema}

namespace TracedBranch

variable {branch : TracedBranch}

theorem map_plans : branch.plans.map TracedPlan.plan =
    branch.toBranch.completed ++ (branch.toBranch.last.map Joined.plan).toList := by
  obtain ⟨completed, _ | last⟩ := branch <;> simp [plans, toBranch, Traced.toPlan]

theorem toBranch_andThen {next : Traced → Except PlanError TracedBranch}
    {next' : Joined → Except PlanError Branch}
    (hn : ∀ traced, (next traced).map toBranch = next' traced.joined) :
    (branch.andThen next).map toBranch = branch.toBranch.andThen next' := by
  obtain ⟨completed, _ | traced⟩ := branch
  · rfl
  · show Except.map _ (next traced >>= _) = next' traced.joined >>= _
    rw [← hn traced]
    rcases next traced with e | rest
    · rfl
    · simp [Except.map, toBranch, bind, Except.bind, pure, Except.pure]

end TracedBranch

mutual

theorem Condition.toBranch_trace {stem : String} {path : List Nat} {unknown : Label}
    {traced : Traced} : ∀ {condition : Condition},
    (condition.trace schema stem path unknown traced).map TracedBranch.toBranch =
      condition.join schema stem path unknown traced.joined
  | .path condition => by
    rw [Condition.trace, Condition.join]
    rcases h : condition.join schema stem path unknown traced.joined with e | branch
    · rfl
    · obtain ⟨completed, last⟩ := branch
      obtain rfl : completed = [] := PathCondition.completed_of_join h
      cases last <;> rfl
  | .existential true block => by
    rw [Condition.trace, Condition.join, ← @Match.toBranch_traceAll stem path block traced]
    rcases Match.traceAll schema stem path traced block with e | ⟨completed, _ | last⟩ <;> rfl
  | .existential false block => by
    rw [Condition.trace, Condition.join, ← @Match.toBranch_traceAll stem path block traced]
    rcases Match.traceAll schema stem path traced block with e | failing
    · rfl
    show Except.map _ (traced.joined.plan.addGroup path >>= _) =
      traced.joined.plan.addGroup path >>= _
    rcases traced.joined.plan.addGroup path with e | ⟨opened, inner⟩
    · rfl
    have habsent : (Match.traceAll schema stem inner
        ⟨⟨opened, traced.joined.bindings⟩, traced.roles⟩ block).map TracedBranch.toBranch =
          Match.joinAll schema stem inner ⟨opened, traced.joined.bindings⟩ block :=
      Match.toBranch_traceAll
    show Except.map _ (Match.traceAll schema stem inner _ block >>= _) =
      Match.joinAll schema stem inner _ block >>= _
    rw [← habsent]
    rcases Match.traceAll schema stem inner ⟨⟨opened, traced.joined.bindings⟩, traced.roles⟩ block
      with e | ⟨completed, _ | last⟩
    · rfl
    · rfl
    · show Except.ok (TracedBranch.toBranch ⟨failing.plans ++ completed, _⟩) = _
      rw [TracedBranch.toBranch, List.map_append, TracedBranch.map_plans]
      rfl

theorem Match.toBranch_traceAll {stem : String} {path : List Nat} :
    ∀ {block : List Match} {traced : Traced},
    (Match.traceAll schema stem path traced block).map TracedBranch.toBranch =
      Match.joinAll schema stem path traced.joined block
  | [], _ => rfl
  | ⟨unknown, conditions⟩ :: rest, traced => by
    rw [Match.traceAll, Match.joinAll, Match.join, ← Condition.toBranch_traceAll]
    rcases Condition.traceAll schema stem path unknown traced conditions with e | branch
    · rfl
    · exact TracedBranch.toBranch_andThen fun next => Match.toBranch_traceAll

theorem Condition.toBranch_traceAll {stem : String} {path : List Nat} {unknown : Label} :
    ∀ {conditions : List Condition} {traced : Traced},
    (Condition.traceAll schema stem path unknown traced conditions).map TracedBranch.toBranch =
      Condition.joinAll schema stem path unknown traced.joined conditions
  | [], _ => rfl
  | condition :: rest, traced => by
    rw [Condition.traceAll, Condition.joinAll, ← Condition.toBranch_trace]
    rcases condition.trace schema stem path unknown traced with e | branch
    · rfl
    · exact TracedBranch.toBranch_andThen fun next => Condition.toBranch_traceAll

end

theorem TracedBranch.map_compiled {branch : TracedBranch}
    {next : Traced → Except PlanError (List TracedPlan)}
    {next' : Joined → Except PlanError (List Plan)}
    (hn : ∀ traced, (next traced).map (List.map TracedPlan.plan) = next' traced.joined) :
    Except.map (List.map TracedPlan.plan) (match branch.last with
      | none => return branch.completed
      | some last => do
        let deeper ← next last
        return branch.completed ++ last.toPlan :: deeper) =
      match branch.toBranch.last with
      | none => return branch.toBranch.completed
      | some last => do
        let deeper ← next' last
        return branch.toBranch.completed ++ last.plan :: deeper := by
  obtain ⟨completed, _ | traced⟩ := branch
  · rfl
  · show Except.map _ (next traced >>= _) = next' traced.joined >>= _
    rw [← hn traced]
    rcases next traced with e | deeper
    · rfl
    · show Except.ok (List.map TracedPlan.plan (completed ++ traced.toPlan :: deeper)) = _
      rw [List.map_append]
      rfl

mutual

theorem Projection.map_tracedPlans : ∀ {projection : Projection} {stem : String}
    {traced : Traced}, (projection.tracedPlans schema stem traced).map (List.map TracedPlan.plan) =
      projection.plans schema stem traced.joined
  | .nested name block projections, stem, traced => by
    rw [Projection.tracedPlans, Projection.plans, ← Match.toBranch_traceAll]
    rcases Match.traceAll schema (stem ++ name ++ ".") [] traced block with e | branch
    · rfl
    · exact TracedBranch.map_compiled fun last => Projection.map_tracedPlansAll
  | .field _ _ _, _, _ => rfl
  | .hash _ _, _, _ => rfl
  | .fact _ _, _, _ => rfl

theorem Projection.map_tracedPlansAll : ∀ {projections : List Projection} {stem : String}
    {traced : Traced},
    (Projection.tracedPlansAll schema stem traced projections).map (List.map TracedPlan.plan) =
      Projection.plansAll schema stem traced.joined projections
  | [], _, _ => rfl
  | projection :: rest, stem, traced => by
    rw [Projection.tracedPlansAll, Projection.plansAll, ← Projection.map_tracedPlans,
      ← Projection.map_tracedPlansAll]
    rcases projection.tracedPlans schema stem traced with e | plans
    · rfl
    · rcases Projection.tracedPlansAll schema stem traced rest with e | others
      · rfl
      · exact congrArg Except.ok List.map_append

end

/-- **A traced compilation joins the plans of a specification.** -/
theorem Specification.map_tracedPlans {spec : Specification} {start : List FactReference} :
    (spec.tracedPlans schema start).map (List.map TracedPlan.plan) = spec.plans schema start := by
  rw [Specification.tracedPlans, Specification.plans]
  rcases spec.checkStart start with e | _
  · rfl
  · show Except.map _ (Match.traceAll _ _ _ _ _ >>= _) = Match.joinAll _ _ _ _ _ >>= _
    rw [← @Match.toBranch_traceAll schema "" [] spec.body ⟨spec.initial schema start, []⟩]
    rcases Match.traceAll schema "" [] ⟨spec.initial schema start, []⟩ spec.body with e | branch
    · rfl
    · exact TracedBranch.map_compiled fun last => Projection.map_tracedPlansAll

/-! ### What every plan satisfies -/

/-- A property of plans and the roles that their edges traverse is preserved by every path condition
and by every new group. -/
structure Preserved (schema : Schema) (P : Plan → List RoleDefinition → Prop) : Prop where
  join : ∀ {stem : String} {path : List Nat} {unknown : Label} {condition : PathCondition}
    {joined : Joined} {roles : List RoleDefinition} {branch : Branch}, P joined.plan roles →
    condition.join schema stem path unknown joined = .ok branch → ∀ last ∈ branch.last,
      P last.plan (roles ++ condition.traversed joined.bindings unknown)
  addGroup : ∀ {plan opened : Plan} {path path' : List Nat} {roles : List RoleDefinition},
    P plan roles → plan.addGroup path = .ok (opened, path') → P opened roles

/-- A property holds of every plan at which a branch arrives. -/
def TracedBranch.Every (P : Plan → List RoleDefinition → Prop) (branch : TracedBranch) : Prop :=
  ∀ traced ∈ branch.plans, P traced.plan traced.roles

variable {P : Plan → List RoleDefinition → Prop}

namespace TracedBranch

variable {branch : TracedBranch}

theorem every_iff : branch.Every P ↔ (∀ traced ∈ branch.completed, P traced.plan traced.roles) ∧
    ∀ last ∈ branch.last, P last.joined.plan last.roles := by
  obtain ⟨completed, _ | last⟩ := branch <;>
    simp [Every, plans, Traced.toPlan, or_imp, forall_and]

theorem Every.andThen {next : Traced → Except PlanError TracedBranch} {whole : TracedBranch}
    (h : branch.Every P) (hn : ∀ traced rest, P traced.joined.plan traced.roles →
      next traced = .ok rest → rest.Every P)
    (hw : branch.andThen next = .ok whole) : whole.Every P := by
  obtain ⟨completed, _ | traced⟩ := branch
  · cases hw
    exact h
  · obtain ⟨rest, hr, hw⟩ := Except.bind_eq_ok_iff.mp hw
    cases hw
    obtain ⟨hcompleted, hlast⟩ := every_iff.mp h
    obtain ⟨hothers, hrest⟩ := every_iff.mp (hn traced rest (hlast traced rfl) hr)
    exact every_iff.mpr ⟨List.forall_mem_append.mpr ⟨hcompleted, hothers⟩, hrest⟩

theorem Every.compiled {next : Traced → Except PlanError (List TracedPlan)}
    {plans : List TracedPlan} (h : branch.Every P)
    (hn : ∀ traced deeper, P traced.joined.plan traced.roles → next traced = .ok deeper →
      ∀ traced ∈ deeper, P traced.plan traced.roles)
    (hp : (match branch.last with
      | none => return branch.completed
      | some last => do
        let deeper ← next last
        return branch.completed ++ last.toPlan :: deeper) = Except.ok plans) :
    ∀ traced ∈ plans, P traced.plan traced.roles := by
  obtain ⟨hcompleted, hlast⟩ := every_iff.mp h
  rcases hl : branch.last with _ | last <;> simp only [hl] at hp
  · cases hp
    exact hcompleted
  · obtain ⟨deeper, hd, hp⟩ := Except.bind_eq_ok_iff.mp hp
    cases hp
    refine List.forall_mem_append.mpr ⟨hcompleted, List.forall_mem_cons.mpr ⟨hlast last hl, ?_⟩⟩
    exact hn last deeper (hlast last hl) hd

end TracedBranch

mutual

theorem Condition.every_trace (hp : Preserved schema P) {stem : String} {unknown : Label} :
    ∀ {condition : Condition} {path : List Nat} {traced : Traced} {branch : TracedBranch},
    P traced.joined.plan traced.roles →
    condition.trace schema stem path unknown traced = .ok branch → branch.Every P
  | .path condition, path, traced, branch, ht, h => by
    rw [Condition.trace] at h
    obtain ⟨joined, hj, h⟩ := Except.bind_eq_ok_iff.mp h
    cases h
    refine TracedBranch.every_iff.mpr ⟨fun _ hm => absurd hm List.not_mem_nil, fun last hl => ?_⟩
    obtain ⟨next, hn, rfl⟩ := Option.map_eq_some_iff.mp hl
    exact hp.join ht hj next hn
  | .existential true block, path, traced, branch, ht, h => by
    rw [Condition.trace] at h
    obtain ⟨inner, hi, h⟩ := Except.bind_eq_ok_iff.mp h
    cases h
    obtain ⟨hcompleted, hlast⟩ := TracedBranch.every_iff.mp (Match.every_traceAll hp ht hi)
    refine TracedBranch.every_iff.mpr ⟨hcompleted, fun last hl => ?_⟩
    obtain ⟨next, hn, rfl⟩ := Option.map_eq_some_iff.mp hl
    exact hlast next hn
  | .existential false block, path, traced, branch, ht, h => by
    rw [Condition.trace] at h
    obtain ⟨failing, hf, h⟩ := Except.bind_eq_ok_iff.mp h
    obtain ⟨⟨opened, inner⟩, hg, h⟩ := Except.bind_eq_ok_iff.mp h
    obtain ⟨absent, ha, h⟩ := Except.bind_eq_ok_iff.mp h
    have hfailing : failing.Every P := Match.every_traceAll hp ht hf
    have habsent : absent.Every P := @Match.every_traceAll hp stem block inner
      ⟨⟨opened, traced.joined.bindings⟩, traced.roles⟩ absent (hp.addGroup ht hg) ha
    obtain ⟨hcompleted, hlast⟩ := TracedBranch.every_iff.mp habsent
    rcases hl : absent.last with _ | last <;> simp only [hl] at h <;> cases h
    · refine TracedBranch.every_iff.mpr ⟨fun _ hm => absurd hm List.not_mem_nil, ?_⟩
      rintro _ ⟨⟩
      exact ht
    · refine TracedBranch.every_iff.mpr
        ⟨List.forall_mem_append.mpr ⟨hfailing, hcompleted⟩, ?_⟩
      rintro _ ⟨⟩
      exact hlast last hl

/-- **What path conditions and new groups preserve holds wherever a join arrives.** -/
theorem Match.every_traceAll (hp : Preserved schema P) {stem : String} :
    ∀ {block : List Match} {path : List Nat} {traced : Traced} {branch : TracedBranch},
    P traced.joined.plan traced.roles →
    Match.traceAll schema stem path traced block = .ok branch → branch.Every P
  | [], path, traced, branch, ht, h => by
    cases h
    exact TracedBranch.every_iff.mpr ⟨fun _ hm => absurd hm List.not_mem_nil, by
      rintro _ ⟨⟩
      exact ht⟩
  | ⟨unknown, conditions⟩ :: rest, path, traced, branch, ht, h => by
    rw [Match.traceAll] at h
    obtain ⟨first, hf, h⟩ := Except.bind_eq_ok_iff.mp h
    exact (Condition.every_traceAll hp ht hf).andThen
      (fun next found hn hr => Match.every_traceAll hp hn hr) h

theorem Condition.every_traceAll (hp : Preserved schema P) {stem : String} {unknown : Label} :
    ∀ {conditions : List Condition} {path : List Nat} {traced : Traced} {branch : TracedBranch},
    P traced.joined.plan traced.roles →
    Condition.traceAll schema stem path unknown traced conditions = .ok branch → branch.Every P
  | [], path, traced, branch, ht, h => by
    cases h
    exact TracedBranch.every_iff.mpr ⟨fun _ hm => absurd hm List.not_mem_nil, by
      rintro _ ⟨⟩
      exact ht⟩
  | condition :: rest, path, traced, branch, ht, h => by
    rw [Condition.traceAll] at h
    obtain ⟨first, hf, h⟩ := Except.bind_eq_ok_iff.mp h
    exact (Condition.every_trace hp ht hf).andThen
      (fun next found hn hr => Condition.every_traceAll hp hn hr) h

end

mutual

theorem Projection.every_tracedPlans (hp : Preserved schema P) :
    ∀ {projection : Projection} {stem : String} {traced : Traced} {plans : List TracedPlan},
    P traced.joined.plan traced.roles → projection.tracedPlans schema stem traced = .ok plans →
    ∀ traced ∈ plans, P traced.plan traced.roles
  | .nested name block projections, stem, traced, plans, ht, h => by
    rw [Projection.tracedPlans] at h
    obtain ⟨branch, hb, h⟩ := Except.bind_eq_ok_iff.mp h
    exact (Match.every_traceAll hp ht hb).compiled
      (fun last deeper hl hd => Projection.every_tracedPlansAll hp hl hd) h
  | .field _ _ _, _, _, _, _, h => by
    cases h
    exact fun _ hm => absurd hm List.not_mem_nil
  | .hash _ _, _, _, _, _, h => by
    cases h
    exact fun _ hm => absurd hm List.not_mem_nil
  | .fact _ _, _, _, _, _, h => by
    cases h
    exact fun _ hm => absurd hm List.not_mem_nil

theorem Projection.every_tracedPlansAll (hp : Preserved schema P) :
    ∀ {projections : List Projection} {stem : String} {traced : Traced} {plans : List TracedPlan},
    P traced.joined.plan traced.roles →
    Projection.tracedPlansAll schema stem traced projections = .ok plans →
    ∀ traced ∈ plans, P traced.plan traced.roles
  | [], _, _, _, _, h => by
    cases h
    exact fun _ hm => absurd hm List.not_mem_nil
  | projection :: rest, stem, traced, plans, ht, h => by
    rw [Projection.tracedPlansAll] at h
    obtain ⟨first, hf, h⟩ := Except.bind_eq_ok_iff.mp h
    obtain ⟨others, ho, h⟩ := Except.bind_eq_ok_iff.mp h
    cases h
    exact List.forall_mem_append.mpr ⟨Projection.every_tracedPlans hp ht hf,
      Projection.every_tracedPlansAll hp ht ho⟩

end

/-- **What path conditions and new groups preserve holds of every plan**, if it holds at the
start. -/
theorem Specification.every_tracedPlans (hp : Preserved schema P) {spec : Specification}
    {start : List FactReference} {plans : List TracedPlan}
    (hs : P (spec.initial schema start).plan []) (h : spec.tracedPlans schema start = .ok plans) :
    ∀ traced ∈ plans, P traced.plan traced.roles := by
  obtain ⟨-, h⟩ := Except.bind_unit_eq_ok_iff.mp h
  obtain ⟨branch, hb, h⟩ := Except.bind_eq_ok_iff.mp h
  have hbranch : branch.Every P := Match.every_traceAll hp hs hb
  exact hbranch.compiled (fun last deeper hl hd => Projection.every_tracedPlansAll hp hl hd) h

end FactGraph
