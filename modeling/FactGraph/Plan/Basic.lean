/-! # Join plans

A join plan says which stored facts answer a specification: numbered slots for facts, edges between
slots, and groups of edges that must not match. Slots and edges count from 1; an edge keeps its
number in whatever branch it stands. A branch is named by a path: the empty path is the
unconditional branch, and every index leads into one of the groups of the branch before it.

A plan only grows. Every operation answers a new plan, so that a compilation can go on from any plan
in several ways. -/

namespace FactGraph

/-- A value that a statement refers to by its position. -/
inductive Parameter where
  | integer (value : Int)
  | text (value : String)
  | integers (values : List Int)
  deriving DecidableEq, Repr

/-- What is wrong with a plan, or with its start. -/
inductive PlanError where
  /-- There are more or fewer start facts than given labels. -/
  | startCount (start given : Nat)
  /-- A start fact is not of the type of its given label. -/
  | startType (index : Nat) (expected actual : String)
  /-- A path condition refers to a label that is not bound yet. -/
  | unknownLabel (name : String)
  /-- Neither end of an edge has been joined. -/
  | disconnectedEdge (edge : Nat)
  /-- A path does not lead to a group. -/
  | unknownBranch (path : List Nat)
  /-- A group has no edge to select from. -/
  | emptyGroup
  /-- Nothing is selected. -/
  | noOutputs
  /-- There is nothing to select from. -/
  | noEdges
  deriving DecidableEq, Repr

namespace PlanError

def message : PlanError → String
  | startCount start given =>
    "The number of start facts (" ++ toString start ++ ") does not equal the number of inputs (" ++
      toString given ++ ")"
  | startType index expected actual =>
    "The type of start fact " ++ toString index ++ " (" ++ actual ++
      ") does not match the type of input " ++ toString index ++ " (" ++ expected ++ ")"
  | unknownLabel name => "Label " ++ name ++ " is not known at this point in the query"
  | disconnectedEdge edge => "Edge e" ++ toString edge ++ " is not connected to any joined fact"
  | unknownBranch path =>
    "No NOT EXISTS condition at [" ++ ", ".intercalate (path.map toString) ++ "]"
  | emptyGroup => "NOT EXISTS condition has no edges"
  | noOutputs => "Query has no outputs"
  | noEdges => "Query has no edges"

end PlanError

namespace Plan

/-! ### The parts of a plan -/

/-- A given fact and the slot that holds it. -/
structure Input where
  label : String
  slot : Nat
  /-- The number of the fact's type, if the catalog knows it. -/
  typeId : Option Int
  hash : String
  /-- The position of the parameter that holds the type's number, once there is one. -/
  typeParameter : Option Nat
  /-- The position of the parameter that holds the hash, once there is one. -/
  hashParameter : Option Nat
  deriving DecidableEq, Repr

/-- A slot for a fact of a type. -/
structure Fact where
  slot : Nat
  type : String
  deriving DecidableEq, Repr

/-- A slot that is selected under a label. -/
structure Output where
  label : String
  type : String
  slot : Nat
  deriving DecidableEq, Repr

/-- An edge between two slots, of the role whose number a parameter holds. -/
structure Edge where
  index : Nat
  predecessor : Nat
  successor : Nat
  roleParameter : Nat
  deriving DecidableEq, Repr

/-- Edges that must not match together, and groups inside of them. -/
structure Group where
  edges : List Edge
  groups : List Group
  deriving Repr

namespace Group

/-- The group without edges. -/
def empty : Group := ⟨[], []⟩

mutual

/-- The number of edges in a group and the groups inside of it. -/
def edgeCount : Group → Nat
  | ⟨edges, groups⟩ => edges.length + edgeCountAll groups

/-- The number of edges in some groups. -/
def edgeCountAll : List Group → Nat
  | [] => 0
  | group :: rest => group.edgeCount + edgeCountAll rest

end

mutual

def decideEq : (a b : Group) → Decidable (a = b)
  | ⟨edges, groups⟩, ⟨edges', groups'⟩ =>
    if h : edges = edges' then
      match decideEqList groups groups' with
      | .isTrue hs => .isTrue (by rw [h, hs])
      | .isFalse hs => .isFalse (by simp [hs])
    else .isFalse (by simp [h])

def decideEqList : (a b : List Group) → Decidable (a = b)
  | [], [] => .isTrue rfl
  | [], _ :: _ => .isFalse (by simp)
  | _ :: _, [] => .isFalse (by simp)
  | a :: as, b :: bs =>
    match decideEq a b, decideEqList as bs with
    | .isTrue h, .isTrue hs => .isTrue (by rw [h, hs])
    | .isFalse h, _ => .isFalse (by simp [h])
    | _, .isFalse hs => .isFalse (by simp [hs])

end

instance : DecidableEq Group := decideEq

/-- The group to which a path leads. A path that leads nowhere is reported from the index on that
names no group. -/
def at? (groups : List Group) : List Nat → Except PlanError Group
  | [] => .error (.unknownBranch [])
  | index :: path =>
    match groups[index]? with
    | none => .error (.unknownBranch (index :: path))
    | some group => if path.isEmpty then .ok group else at? group.groups path

/-- Changes the group to which a path leads. -/
def modify (change : Group → Group) (groups : List Group) :
    List Nat → Except PlanError (List Group)
  | [] => .error (.unknownBranch [])
  | index :: path =>
    match groups[index]? with
    | none => .error (.unknownBranch (index :: path))
    | some group =>
      if path.isEmpty then .ok (groups.set index (change group))
      else do
        let inner ← modify change group.groups path
        return groups.set index { group with groups := inner }

end Group

end Plan

/-- A join plan. -/
structure Plan where
  inputs : List Plan.Input
  parameters : List Parameter
  outputs : List Plan.Output
  facts : List Plan.Fact
  edges : List Plan.Edge
  groups : List Plan.Group
  deriving DecidableEq, Repr

namespace Plan

/-! ### Growing a plan -/

/-- The plan that only knows the given facts. -/
def start (inputs : List Input) (facts : List Fact) : Plan := ⟨inputs, [], [], facts, [], []⟩

/-- The number of edges in all branches. -/
def edgeCount (plan : Plan) : Nat := plan.edges.length + Group.edgeCountAll plan.groups

/-- The input of a given label. -/
def input? (plan : Plan) (label : String) : Option Input :=
  plan.inputs.find? fun input => input.label == label

/-- Appends a parameter, and tells its position, counted from 1. -/
def addParameter (plan : Plan) (parameter : Parameter) : Plan × Nat :=
  ({ plan with parameters := plan.parameters ++ [parameter] }, plan.parameters.length + 1)

/-- Appends parameters for the type and the hash of an input. There are none for a label that is no
input, or whose type the catalog does not know. -/
def addInputParameters (plan : Plan) (label : String) : Option Plan := do
  let position ← plan.inputs.findIdx? fun input => input.label == label
  let input ← plan.inputs[position]?
  let typeId ← input.typeId
  let (plan, typeParameter) := plan.addParameter (.integer typeId)
  let (plan, hashParameter) := plan.addParameter (.text input.hash)
  let pinned := { input with
    typeParameter := some typeParameter
    hashParameter := some hashParameter }
  return { plan with inputs := plan.inputs.set position pinned }

/-- Appends a slot, and tells its number. -/
def addFact (plan : Plan) (type : String) : Plan × Nat :=
  let slot := plan.facts.length + 1
  ({ plan with facts := plan.facts ++ [⟨slot, type⟩] }, slot)

/-- Appends an edge to the branch of a path. -/
def addEdge (plan : Plan) (predecessor successor roleParameter : Nat) (path : List Nat) :
    Except PlanError Plan :=
  let edge : Edge := ⟨plan.edgeCount + 1, predecessor, successor, roleParameter⟩
  if path.isEmpty then .ok { plan with edges := plan.edges ++ [edge] }
  else do
    let change (group : Group) : Group := { group with edges := group.edges ++ [edge] }
    return { plan with groups := ← Group.modify change plan.groups path }

/-- Selects a slot under a label. -/
def addOutput (plan : Plan) (label type : String) (slot : Nat) : Plan :=
  { plan with outputs := plan.outputs ++ [⟨label, type, slot⟩] }

/-- Appends an empty group to the branch of a path, and tells the path of the group. -/
def addGroup (plan : Plan) (path : List Nat) : Except PlanError (Plan × List Nat) :=
  if path.isEmpty then
    .ok ({ plan with groups := plan.groups ++ [Group.empty] }, [plan.groups.length])
  else do
    let outer ← Group.at? plan.groups path
    let change (group : Group) : Group := { group with groups := group.groups ++ [Group.empty] }
    let groups ← Group.modify change plan.groups path
    return ({ plan with groups := groups }, path ++ [outer.groups.length])

end Plan

end FactGraph
