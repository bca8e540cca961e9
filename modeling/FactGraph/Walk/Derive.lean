import FactGraph.Specification.Scope
import FactGraph.Walk.Basic

/-! # Walks of specifications

The walk of a specification with a single given starts at that given. Matches are taken from the
last to the first, so that whatever continues from an unknown is known when its own match is
reached: the steps of the path condition lead from the label on its right side to the unknown, and
everything that continues from the unknown goes on there. Existential conditions become obligations
on the unknown; they have to continue from it, and must not carry obligations themselves.
Projections are no part of the walk. -/

namespace FactGraph

/-- Why a specification has no walk. -/
inductive WalkError where
  | givenCount (count : Nat)
  | pathConditionCount (unknown : String) (count : Nat)
  | unknownLabel (name : String)
  /-- An existential condition does not continue from its unknown. -/
  | detachedCondition (unknown : String)
  /-- What an existential condition demands has conditions itself. -/
  | nestedCondition (unknown : String)
  /-- Two walks from one label start from different types. -/
  | typeConflict (left right : String)
  deriving DecidableEq, Repr

def WalkError.message : WalkError → String
  | givenCount count => "Specification must have exactly one given, found " ++ toString count
  | pathConditionCount unknown count =>
    "Match " ++ unknown ++ " must have exactly one path condition, found " ++ toString count
  | unknownLabel name => "Label " ++ name ++ " is not defined"
  | detachedCondition unknown => "Could not find walk for label " ++ unknown
  | nestedCondition unknown =>
    "Existential conditions on " ++ unknown ++ " cannot themselves have conditions"
  | typeConflict left right =>
    "Cannot merge walks of different types: " ++ left ++ " and " ++ right

/-! ### Walks from labels -/

/-- The walks that continue from labels, at most one from each. -/
abbrev Continuations : Type := List (String × Walk)

namespace Continuations

/-- The walk that continues from a label. -/
def walk? (walks : Continuations) (label : String) : Option Walk := walks.lookup label

/-- Leaves out the walk from a label. -/
def without (walks : Continuations) (label : String) : Continuations :=
  walks.filter fun entry => entry.1 != label

/-- Sets the walk from a label. -/
def insert (walks : Continuations) (label : String) (walk : Walk) : Continuations :=
  (label, walk) :: walks.without label

end Continuations

namespace Walk

/-- The walk down the roles in reverse, from the type at their end. -/
def descending (roles : List Role) (next : Walk) : Walk :=
  roles.foldl (fun walk role => (ofType role.target).successor role.name walk) next

/-- The walk up the roles, from a type. -/
def ascending (type : String) : List Role → Walk → Walk
  | [], next => next
  | role :: rest, next =>
    (ofType type).predecessor role.name (ascending role.target rest next)

/-- Both of two walks from one fact. -/
def merge (left right : Walk) : Except WalkError Walk :=
  if left.type = right.type then
    .ok ⟨left.type, left.steps ++ right.steps, left.obligations ++ right.obligations⟩
  else .error (.typeConflict left.type right.type)

end Walk

/-- The path condition of a match, which must be its only one. -/
def Match.onlyPath (m : Match) : Except WalkError PathCondition :=
  match m.path? with
  | some path => .ok path
  | none => .error (.pathConditionCount m.unknown.name m.paths.length)

/-- Puts a match in front of the walks of the matches behind it, given the walk that continues from
its unknown. -/
def PathCondition.lead (scope : Scope) (path : PathCondition) (next : Walk)
    (walks : Continuations) : Except WalkError Continuations :=
  match scope.type? path.labelRight with
  | none => .error (.unknownLabel path.labelRight)
  | some type => do
    let walk := Walk.ascending type path.rolesRight (Walk.descending path.rolesLeft next)
    let merged ← match walks.walk? path.labelRight with
      | some other => walk.merge other
      | none => .ok walk
    return walks.insert path.labelRight merged

mutual

/-- The walks that matches lead along, from each label that they start from. -/
def Match.walks (scope : Scope) : List Match → Except WalkError Continuations
  | [] => .ok []
  | ⟨unknown, conditions⟩ :: rest => do
    let scope := scope.bind unknown
    let walks ← Match.walks scope rest
    let path ← Match.onlyPath ⟨unknown, conditions⟩
    let next := (walks.walk? unknown.name).getD (Walk.ofType unknown.type)
    let next ← Condition.obligeAll scope unknown.name next conditions
    path.lead scope next (walks.without unknown.name)

/-- Adds the obligations of a condition to the walk that continues from the unknown. -/
def Condition.oblige (scope : Scope) (unknown : String) (walk : Walk) :
    Condition → Except WalkError Walk
  | .path _ => .ok walk
  | .existential holds block => do
    let walks ← Match.walks scope block
    match walks.walk? unknown with
    | none => .error (.detachedCondition unknown)
    | some child =>
      if child.hasObligations then .error (.nestedCondition unknown)
      else
        return { walk with
          obligations := walk.obligations ++ child.steps.map fun step => ⟨holds, step⟩ }

/-- Adds the obligations of conditions, one after the other. -/
def Condition.obligeAll (scope : Scope) (unknown : String) (walk : Walk) :
    List Condition → Except WalkError Walk
  | [] => .ok walk
  | condition :: rest => do
    let next ← condition.oblige scope unknown walk
    Condition.obligeAll scope unknown next rest

end

/-- The walk of a specification. -/
def Specification.walk (spec : Specification) : Except WalkError Walk :=
  match spec.given with
  | [given] => do
    let walks ← Match.walks (Scope.bind [] given) spec.body
    return (walks.walk? given.name).getD (Walk.ofType given.type)
  | given => .error (.givenCount given.length)

end FactGraph
