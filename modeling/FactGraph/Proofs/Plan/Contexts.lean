import FactGraph.Proofs.Plan.Abreast
import FactGraph.Proofs.Specification.Contexts

/-! # Joins in contexts

A join of a block with matches in its hole reaches the hole some number of times: a negative
condition around it is joined twice, once for the plans for which it fails and once in its group, and
nothing behind a dropped branch is reached. Matches that are joined alike wherever the hole is
reached can be put in each other's place.

* `Match.Context.joinAll_congr`: blocks with such matches in their holes.
* `Specification.Context.plans_congr`: the plans of whole specifications. -/

namespace FactGraph

/-! ### Sequences of joins -/

namespace Branch

variable {branch : Branch} {joined : Joined} {next next' : Joined → Except PlanError Branch}

theorem andThen_some (completed : List Plan) (joined : Joined)
    (next : Joined → Except PlanError Branch) :
    (⟨completed, some joined⟩ : Branch).andThen next =
      (next joined).map fun rest => ⟨completed ++ rest.completed, rest.last⟩ := rfl

theorem continued_andThen (joined : Joined) (next : Joined → Except PlanError Branch) :
    (continued joined).andThen next = next joined := by
  rw [continued, andThen_some]
  rcases next joined with e | rest <;> rfl

theorem andThen_continued (branch : Branch) :
    branch.andThen (fun joined => .ok (continued joined)) = .ok branch := by
  obtain ⟨completed, _ | joined⟩ := branch
  · rfl
  · rw [andThen_some, continued]
    simp [Except.map]

theorem andThen_assoc (branch : Branch) (next next' : Joined → Except PlanError Branch) :
    (do let rest ← branch.andThen next; rest.andThen next') =
      branch.andThen fun joined => (do let rest ← next joined; rest.andThen next') := by
  obtain ⟨completed, _ | joined⟩ := branch
  · rfl
  rw [andThen_some, andThen_some]
  rcases next joined with e | ⟨more, _ | last⟩
  · rfl
  · rfl
  · show (⟨completed ++ more, some last⟩ : Branch).andThen next' =
      ((⟨more, some last⟩ : Branch).andThen next').map _
    rw [andThen_some, andThen_some]
    rcases next' last with e | rest
    · rfl
    · simp [Except.map]

theorem bind_andThen_congr {join : Except PlanError Branch}
    (h : ∀ branch joined, join = .ok branch → branch.last = some joined →
      next joined = next' joined) :
    (do let branch ← join; branch.andThen next) = (do let branch ← join; branch.andThen next') := by
  rcases join with e | branch
  · rfl
  obtain ⟨completed, _ | joined⟩ := branch
  · rfl
  · have hnext := h _ joined rfl rfl
    show (next joined >>= _) = next' joined >>= _
    rw [hnext]

end Branch

section

variable {schema : Schema} {stem : String} {path : List Nat}

theorem Condition.joinAll_append (unknown : Label) (before after : List Condition)
    (joined : Joined) : Condition.joinAll schema stem path unknown joined (before ++ after) = (do
      let branch ← Condition.joinAll schema stem path unknown joined before
      branch.andThen fun next => Condition.joinAll schema stem path unknown next after) := by
  induction before generalizing joined with
  | nil => exact (Branch.continued_andThen joined (Condition.joinAll schema stem path unknown · after)).symm
  | cons condition before ih =>
    rw [List.cons_append, Condition.joinAll, Condition.joinAll, bind_assoc]
    simp only [ih, Branch.andThen_assoc]

theorem Match.joinAll_append (block more : List Match) (joined : Joined) :
    Match.joinAll schema stem path joined (block ++ more) = (do
      let branch ← Match.joinAll schema stem path joined block
      branch.andThen fun next => Match.joinAll schema stem path next more) := by
  induction block generalizing joined with
  | nil => exact (Branch.continued_andThen joined (Match.joinAll schema stem path · more)).symm
  | cons m block ih =>
    rw [List.cons_append, Match.joinAll, Match.joinAll, bind_assoc]
    simp only [ih, Branch.andThen_assoc]

/-! ### Joins that reach the hole -/

/-- A join of a block with some matches in its hole reaches the hole, and goes on there at a branch
from what has been joined until then. -/
inductive Match.Context.Reaches (schema : Schema) (stem : String) (filling : List Match)
    (hole : List Nat) (reached : Joined) : Match.Context → List Nat → Joined → Prop
  | here {rest : List Match} : Reaches schema stem filling hole reached (.here rest) hole reached
  | behind {m : Match} {context : Match.Context} {path : List Nat} {joined next : Joined}
      {branch : Branch} (join : m.join schema stem path joined = .ok branch)
      (last : branch.last = some next)
      (reaches : Reaches schema stem filling hole reached context path next) :
      Reaches schema stem filling hole reached (.behind m context) path joined
  /-- The block of a condition is joined where the condition is reached. -/
  | inside {unknown : Label} {before after : List Condition} {holds : Bool}
      {context : Match.Context} {rest : List Match} {path : List Nat} {joined next : Joined}
      {branch : Branch}
      (join : Condition.joinAll schema stem path unknown joined before = .ok branch)
      (last : branch.last = some next)
      (reaches : Reaches schema stem filling hole reached context path next) :
      Reaches schema stem filling hole reached (.inside unknown before holds context after rest)
        path joined
  /-- The block of a negative condition is joined in its group as well. -/
  | absent {unknown : Label} {before after : List Condition} {context : Match.Context}
      {rest : List Match} {path inner : List Nat} {joined next : Joined} {opened : Plan}
      {branch failing : Branch}
      (join : Condition.joinAll schema stem path unknown joined before = .ok branch)
      (last : branch.last = some next)
      (fails : Match.joinAll schema stem path next (context.fill filling) = .ok failing)
      (group : next.plan.addGroup path = .ok (opened, inner))
      (reaches : Reaches schema stem filling hole reached context inner ⟨opened, next.bindings⟩) :
      Reaches schema stem filling hole reached (.inside unknown before false context after rest)
        path joined

/-- Conditions can be replaced by others that are joined alike behind those in front. -/
theorem Condition.joinAll_congr {unknown : Label} {before conditions conditions' : List Condition}
    {joined : Joined}
    (h : ∀ branch next, Condition.joinAll schema stem path unknown joined before = .ok branch →
      branch.last = some next → Condition.joinAll schema stem path unknown next conditions =
        Condition.joinAll schema stem path unknown next conditions') :
    Condition.joinAll schema stem path unknown joined (before ++ conditions) =
      Condition.joinAll schema stem path unknown joined (before ++ conditions') := by
  rw [Condition.joinAll_append, Condition.joinAll_append]
  exact Branch.bind_andThen_congr h

/-- An existential condition is joined alike if its block is, where it is joined. -/
theorem Condition.join_existential_congr {unknown : Label} {holds : Bool}
    {block block' : List Match} {joined : Joined}
    (h : Match.joinAll schema stem path joined block = Match.joinAll schema stem path joined block')
    (hgroup : holds = false → ∀ failing opened inner,
      Match.joinAll schema stem path joined block = .ok failing →
      joined.plan.addGroup path = .ok (opened, inner) →
        Match.joinAll schema stem inner ⟨opened, joined.bindings⟩ block =
          Match.joinAll schema stem inner ⟨opened, joined.bindings⟩ block') :
    Condition.join schema stem path unknown joined (.existential holds block) =
      Condition.join schema stem path unknown joined (.existential holds block') := by
  cases holds with
  | true => rw [Condition.join, Condition.join, h]
  | false =>
    rw [Condition.join, Condition.join, ← h]
    refine Except.bind_congr_of_ok fun failing hf => Except.bind_congr_of_ok fun group hg => ?_
    obtain ⟨opened, inner⟩ := group
    simp only [hgroup rfl failing opened inner hf hg]

/-- **Blocks with matches in their holes that are joined alike wherever the hole is reached** are
joined alike. -/
theorem Match.Context.joinAll_congr {filling filling' : List Match} :
    ∀ {context : Match.Context} {path : List Nat} {joined : Joined},
    (∀ hole reached, context.Reaches schema stem filling hole reached path joined →
      Match.joinAll schema stem hole reached filling =
        Match.joinAll schema stem hole reached filling') →
    Match.joinAll schema stem path joined (context.fill filling) =
      Match.joinAll schema stem path joined (context.fill filling')
  | .here rest, path, joined, h => by
    rw [fill, fill, Match.joinAll_append, Match.joinAll_append, h path joined .here]
  | .behind m context, path, joined, h => by
    rw [fill, fill, Match.joinAll, Match.joinAll]
    exact Branch.bind_andThen_congr fun branch next hj hl =>
      joinAll_congr fun hole reached hr => h hole reached (.behind hj hl hr)
  | .inside unknown before holds context after rest, path, joined, h => by
    rw [fill, fill, Match.joinAll, Match.joinAll, Match.join, Match.join]
    refine congrArg (· >>= _) (Condition.joinAll_congr fun branch next hj hl => ?_)
    rw [Condition.joinAll, Condition.joinAll]
    refine congrArg (· >>= _) (Condition.join_existential_congr ?_ ?_)
    · exact joinAll_congr fun hole reached hr => h hole reached (.inside hj hl hr)
    · rintro rfl failing opened inner hf hg
      exact joinAll_congr fun hole reached hr => h hole reached (.absent hj hl hf hg hr)

/-! ### Branches that are reached -/

theorem Condition.hasBranch_of_joinAll {conditions : List Condition} {unknown : Label}
    {joined next : Joined} {branch : Branch} (hb : joined.plan.HasBranch path)
    (hj : Condition.joinAll schema stem path unknown joined conditions = .ok branch)
    (hl : branch.last = some next) : next.plan.HasBranch path := by
  obtain ⟨branch', hj', hstep⟩ := Condition.joinAll_inStep conditions (.refl hb) hj
  obtain rfl := Except.ok.inj (hj.symm.trans hj')
  exact hstep.hasBranch hl

theorem Match.Context.Reaches.hasBranch {filling : List Match} {context : Match.Context}
    {hole path : List Nat} {reached joined : Joined}
    (h : context.Reaches schema stem filling hole reached path joined)
    (hb : joined.plan.HasBranch path) : reached.plan.HasBranch hole := by
  induction h with
  | here => exact hb
  | @behind m _ _ _ _ _ join last _ ih =>
    obtain ⟨unknown, conditions⟩ := m
    exact ih (Condition.hasBranch_of_joinAll hb join last)
  | inside join last _ ih => exact ih (Condition.hasBranch_of_joinAll hb join last)
  | absent join last _ group _ ih =>
    exact ih (Plan.edgeCount_of_addGroup group (Condition.hasBranch_of_joinAll hb join last)).1

end

/-! ### Projections and specifications -/

/-- The plans for some projections with matches in a hole come to the hole, with a stem for the
labels there. -/
inductive Projection.Context.Reaches (schema : Schema) (filling : List Match) (stem' : String)
    (hole : List Nat) (reached : Joined) : Projection.Context → String → Joined → Prop
  | here {name stem : String} {context : Match.Context} {projections rest : List Projection}
      {joined : Joined} (stem_eq : stem' = stem ++ name ++ ".")
      (reaches : context.Reaches schema stem' filling hole reached [] joined) :
      Reaches schema filling stem' hole reached (.here name context projections rest) stem joined
  | behind {projection : Projection} {context : Projection.Context} {stem : String}
      {joined : Joined} {plans : List Plan}
      (compiled : projection.plans schema stem joined = .ok plans)
      (reaches : Reaches schema filling stem' hole reached context stem joined) :
      Reaches schema filling stem' hole reached (.behind projection context) stem joined
  | inside {name stem : String} {block : List Match} {context : Projection.Context}
      {rest : List Projection} {joined next : Joined} {branch : Branch}
      (join : Match.joinAll schema (stem ++ name ++ ".") [] joined block = .ok branch)
      (last : branch.last = some next)
      (reaches : Reaches schema filling stem' hole reached context (stem ++ name ++ ".") next) :
      Reaches schema filling stem' hole reached (.inside name block context rest) stem joined

/-- The plans for a specification with matches in a hole come to the hole. -/
inductive Specification.Context.Reaches (schema : Schema) (start : List FactReference)
    (filling : List Match) (stem : String) (hole : List Nat) (reached : Joined) :
    Specification.Context → Prop
  | inBody {given : List Label} {context : Match.Context} {projections : List Projection}
      (stem_eq : stem = "")
      (reaches : context.Reaches schema stem filling hole reached []
        (Specification.initial ⟨given, [], []⟩ schema start)) :
      Reaches schema start filling stem hole reached (.inBody given context projections)
  | inProjections {given : List Label} {body : List Match} {context : Projection.Context}
      {branch : Branch} {next : Joined}
      (join : Match.joinAll schema "" [] (Specification.initial ⟨given, [], []⟩ schema start) body =
        .ok branch)
      (last : branch.last = some next)
      (reaches : context.Reaches schema filling stem hole reached "" next) :
      Reaches schema start filling stem hole reached (.inProjections given body context)

section

variable {schema : Schema} {filling filling' : List Match} {stem' : String} {hole : List Nat}
  {reached : Joined}

theorem Projection.Context.Reaches.hasBranch {context : Projection.Context} {stem : String}
    {joined : Joined} (h : context.Reaches schema filling stem' hole reached stem joined) :
    reached.plan.HasBranch hole := by
  induction h with
  | here _ reaches => exact reaches.hasBranch (Plan.hasBranch_nil _)
  | behind _ _ ih => exact ih
  | inside _ _ _ ih => exact ih

theorem Specification.Context.Reaches.hasBranch {context : Specification.Context}
    {start : List FactReference}
    (h : context.Reaches schema start filling stem' hole reached) :
    reached.plan.HasBranch hole := by
  cases h with
  | inBody _ reaches => exact reaches.hasBranch (Plan.hasBranch_nil _)
  | inProjections _ _ reaches => exact reaches.hasBranch

/-- Projections with matches in a hole that are joined alike wherever the hole is reached. -/
theorem Projection.Context.plansAll_congr : ∀ {context : Projection.Context} {stem : String}
    {joined : Joined}, (∀ stem' hole reached,
      context.Reaches schema filling stem' hole reached stem joined →
        Match.joinAll schema stem' hole reached filling =
          Match.joinAll schema stem' hole reached filling') →
    Projection.plansAll schema stem joined (context.fill filling) =
      Projection.plansAll schema stem joined (context.fill filling')
  | .here name context projections rest, stem, joined, h => by
    rw [fill, fill, Projection.plansAll, Projection.plansAll, Projection.plans, Projection.plans]
    rw [Match.Context.joinAll_congr fun hole reached hr => h _ hole reached (.here rfl hr)]
  | .behind projection context, stem, joined, h => by
    rw [fill, fill, Projection.plansAll, Projection.plansAll]
    refine Except.bind_congr_of_ok fun plans hp => congrArg (· >>= _) ?_
    exact plansAll_congr fun stem' hole reached hr => h stem' hole reached (.behind hp hr)
  | .inside name block context rest, stem, joined, h => by
    rw [fill, fill, Projection.plansAll, Projection.plansAll, Projection.plans, Projection.plans]
    refine congrArg (· >>= _) (Except.bind_congr_of_ok fun branch hj => ?_)
    rcases hl : branch.last with _ | next
    · rfl
    · exact congrArg (· >>= _) (plansAll_congr fun stem' hole reached hr =>
        h stem' hole reached (.inside hj hl hr))

/-- **Specifications with matches in a hole that are joined alike wherever the hole is reached** have
the same plans, or fail in the same way. -/
theorem Specification.Context.plans_congr {context : Specification.Context}
    {start : List FactReference}
    (h : ∀ stem hole reached, context.Reaches schema start filling stem hole reached →
      Match.joinAll schema stem hole reached filling =
        Match.joinAll schema stem hole reached filling') :
    (context.fill filling).plans schema start = (context.fill filling').plans schema start := by
  cases context with
  | inBody given context projections =>
    have hbody : Match.joinAll schema "" [] (Specification.initial ⟨given, [], []⟩ schema start)
        (context.fill filling) = Match.joinAll schema "" []
          (Specification.initial ⟨given, [], []⟩ schema start) (context.fill filling') :=
      Match.Context.joinAll_congr fun hole reached hr => h _ hole reached (.inBody rfl hr)
    exact congrArg (Specification.checkStart ⟨given, [], []⟩ start >>= fun _ => · >>= _) hbody
  | inProjections given body context =>
    refine Except.bind_congr_of_ok fun _ _ => Except.bind_congr_of_ok fun branch hj => ?_
    rcases hl : branch.last with _ | next
    · rfl
    · exact congrArg (· >>= _) (Projection.Context.plansAll_congr fun stem hole reached hr =>
        h stem hole reached (.inProjections hj hl hr))

end

end FactGraph
