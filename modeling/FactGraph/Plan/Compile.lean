import FactGraph.Catalog
import FactGraph.Plan.Basic
import FactGraph.Reference
import FactGraph.Specification.Basic

/-! # Compiling specifications to join plans

The matches of a specification are joined one after the other onto a plan. A path condition joins
the roles of its right side upwards from a bound label, then those of its left side downwards to the
unknown. A positive existential condition is proved by its own joins. A negative one forks: one plan
finds the tuples for which the condition fails, and another goes on with a group that must not
match. So a specification has one plan for its tuples and further plans on the way.

A name that the catalog does not know has never been stored, so a branch that needs it is dropped:
it ends without a plan. A negative condition that is dropped holds. -/

namespace FactGraph

/-- The slots of the labels that are bound, the latest first. -/
abbrev Bindings : Type := List (String × Plan.Fact)

/-- What a compilation goes on from: a plan and the labels that are bound in it. -/
structure Joined where
  plan : Plan
  bindings : Bindings
  deriving DecidableEq

/-- Where a compilation has come: the plans completed on the way, and what it goes on from unless
the branch is dropped. -/
structure Branch where
  completed : List Plan
  last : Option Joined
  deriving DecidableEq

namespace Branch

/-- The branch that goes on without completing a plan. -/
def continued (joined : Joined) : Branch := ⟨[], some joined⟩

/-- The branch that is dropped. -/
def dropped : Branch := ⟨[], none⟩

/-- Goes on with a branch, if it is not dropped. -/
def andThen (branch : Branch) (next : Joined → Except PlanError Branch) :
    Except PlanError Branch :=
  match branch.last with
  | none => .ok branch
  | some joined => do
    let rest ← next joined
    return ⟨branch.completed ++ rest.completed, rest.last⟩

end Branch

/-! ### Paths -/

/-- The numbers of roles that lead up from a type, each with the type that declares it. -/
def resolveRoles (schema : Schema) (type : String) : List Role → Option (List (Int × String))
  | [] => some []
  | role :: rest => do
    let id ← schema.roleOf type role.name
    let others ← resolveRoles schema role.target rest
    return (id, type) :: others

/-- The slot for the fact that a role leads to: the slot of the unknown, if it is bound and the role
is the last one, and otherwise a new slot. -/
def nextSlot {α : Type} (plan : Plan) (type : String) (unknown : Option Plan.Fact)
    (rest : List α) : Plan × Nat :=
  match unknown, rest with
  | some fact, [] => (plan, fact.slot)
  | _, _ => plan.addFact type

/-- Joins roles upwards from a slot that holds a fact of a type. -/
def ascend (schema : Schema) (path : List Nat) (unknown : Option Plan.Fact) :
    (plan : Plan) → (slot : Nat) → (type : String) → List Role →
      Except PlanError (Option (Plan × Nat))
  | plan, slot, _, [] => .ok (some (plan, slot))
  | plan, slot, type, role :: rest =>
    match schema.roleOf type role.name with
    | none => .ok none
    | some id => do
      let (plan, parameter) := plan.addParameter (.integer id)
      let (plan, predecessor) := nextSlot plan role.target unknown rest
      let plan ← plan.addEdge predecessor slot parameter path
      ascend schema path unknown plan predecessor role.target rest

/-- Joins roles downwards from a slot, each of them given by its number and its declaring type. -/
def descend (path : List Nat) (unknown : Option Plan.Fact) :
    (plan : Plan) → (slot : Nat) → List (Int × String) → Except PlanError (Plan × Nat)
  | plan, slot, [] => .ok (plan, slot)
  | plan, slot, (id, type) :: rest => do
    let (plan, parameter) := plan.addParameter (.integer id)
    let (plan, successor) := nextSlot plan type unknown rest
    let plan ← plan.addEdge slot successor parameter path
    descend path unknown plan successor rest

/-- Gives an input its parameters when a path uses it for the first time. The answer is missing if
the catalog does not know the type of the input. -/
def Plan.useInput (plan : Plan) (label : String) : Option Plan :=
  match plan.input? label with
  | none => some plan
  | some input =>
    if input.typeParameter.isNone then plan.addInputParameters label else some plan

/-- Joins a path condition. An unknown that was not bound before is bound to the slot at its end,
and in the unconditional branch that slot is selected under the stem and the unknown's name. -/
def PathCondition.join (schema : Schema) (stem : String) (path : List Nat) (unknown : Label)
    (condition : PathCondition) (joined : Joined) : Except PlanError Branch :=
  match joined.plan.useInput condition.labelRight with
  | none => .ok .dropped
  | some plan =>
    match joined.bindings.lookup condition.labelRight with
    | none => .error (.unknownLabel condition.labelRight)
    | some right => do
      let bound := joined.bindings.lookup unknown.name
      let boundRight := if condition.rolesLeft.isEmpty then bound else none
      match ← ascend schema path boundRight plan right.slot right.type condition.rolesRight with
      | none => return .dropped
      | some (plan, slot) =>
        match resolveRoles schema unknown.type condition.rolesLeft with
        | none => return .dropped
        | some roles =>
          let (plan, slot) ← descend path bound plan slot roles.reverse
          match bound with
          | some _ => return .continued ⟨plan, joined.bindings⟩
          | none =>
            let plan :=
              if path.isEmpty then plan.addOutput (stem ++ unknown.name) unknown.type slot else plan
            return .continued ⟨plan, (unknown.name, ⟨slot, unknown.type⟩) :: joined.bindings⟩

/-! ### Matches -/

mutual

/-- Joins a condition on an unknown onto the branch of a path. -/
def Condition.join (schema : Schema) (stem : String) (path : List Nat) (unknown : Label)
    (joined : Joined) : Condition → Except PlanError Branch
  | .path condition => condition.join schema stem path unknown joined
  | .existential true block => do
    let inner ← Match.joinAll schema stem path joined block
    return ⟨inner.completed, inner.last.map fun last => ⟨last.plan, joined.bindings⟩⟩
  | .existential false block => do
    let failing ← Match.joinAll schema stem path joined block
    let (opened, inner) ← joined.plan.addGroup path
    let absent ← Match.joinAll schema stem inner ⟨opened, joined.bindings⟩ block
    match absent.last with
    | none => return .continued joined
    | some last =>
      return ⟨failing.completed ++ (failing.last.map Joined.plan).toList ++ absent.completed,
        some ⟨last.plan, joined.bindings⟩⟩

/-- Joins a match onto the branch of a path. -/
def Match.join (schema : Schema) (stem : String) (path : List Nat) (joined : Joined) :
    Match → Except PlanError Branch
  | ⟨unknown, conditions⟩ => Condition.joinAll schema stem path unknown joined conditions

/-- Joins matches one after the other. -/
def Match.joinAll (schema : Schema) (stem : String) (path : List Nat) (joined : Joined) :
    List Match → Except PlanError Branch
  | [] => .ok (.continued joined)
  | m :: rest => do
    let branch ← m.join schema stem path joined
    branch.andThen fun next => Match.joinAll schema stem path next rest

/-- Joins conditions on an unknown one after the other. -/
def Condition.joinAll (schema : Schema) (stem : String) (path : List Nat) (unknown : Label)
    (joined : Joined) : List Condition → Except PlanError Branch
  | [] => .ok (.continued joined)
  | condition :: rest => do
    let branch ← condition.join schema stem path unknown joined
    branch.andThen fun next => Condition.joinAll schema stem path unknown next rest

end

/-! ### Projections -/

mutual

/-- The plans for a projection of tuples that are joined already. Only nested projections need any:
they join further matches, and select them under their name. -/
def Projection.plans (schema : Schema) (stem : String) (joined : Joined) :
    Projection → Except PlanError (List Plan)
  | .nested name block projections => do
    let stem := stem ++ name ++ "."
    let branch ← Match.joinAll schema stem [] joined block
    match branch.last with
    | none => return branch.completed
    | some last =>
      let deeper ← Projection.plansAll schema stem last projections
      return branch.completed ++ last.plan :: deeper
  | _ => .ok []

/-- The plans for projections, one after the other. -/
def Projection.plansAll (schema : Schema) (stem : String) (joined : Joined) :
    List Projection → Except PlanError (List Plan)
  | [] => .ok []
  | projection :: rest => do
    let plans ← projection.plans schema stem joined
    return plans ++ (← Projection.plansAll schema stem joined rest)

end

/-! ### Specifications -/

namespace Specification

/-- Checks that there is one start fact for each given label, and that the types agree. -/
def checkStart (spec : Specification) (start : List FactReference) : Except PlanError Unit :=
  if start.length ≠ spec.given.length then
    .error (.startCount start.length spec.given.length)
  else
    match (start.zip spec.given).zipIdx.find? fun ((fact, label), _) => fact.type != label.type with
    | some ((fact, label), index) => .error (.startType index label.type fact.type)
    | none => .ok ()

/-- The given facts as inputs, without parameters. -/
def inputs (spec : Specification) (schema : Schema) (start : List FactReference) :
    List Plan.Input :=
  ((spec.given.zip start).zipIdx 1).map fun ((label, fact), slot) =>
    ⟨label.name, slot, schema.factTypeId label.type, fact.hash, none, none⟩

/-- The slots of the given facts. -/
def givenFacts (spec : Specification) : List Plan.Fact :=
  (spec.given.zipIdx 1).map fun (label, slot) => ⟨slot, label.type⟩

/-- What a compilation starts from. -/
def initial (spec : Specification) (schema : Schema) (start : List FactReference) : Joined :=
  ⟨Plan.start (spec.inputs schema start) spec.givenFacts,
    ((spec.given.map Label.name).zip spec.givenFacts).reverse⟩

/-- The plans that answer a specification from start facts. -/
def plans (spec : Specification) (schema : Schema) (start : List FactReference) :
    Except PlanError (List Plan) := do
  spec.checkStart start
  let branch ← Match.joinAll schema "" [] (spec.initial schema start) spec.body
  match branch.last with
  | none => return branch.completed
  | some last =>
    let projected ← Projection.plansAll schema "" last spec.projections
    return branch.completed ++ last.plan :: projected

end Specification

end FactGraph
