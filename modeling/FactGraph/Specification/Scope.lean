import FactGraph.Specification.Basic
import FactGraph.Specification.Error

/-! # Scopes and well-formed specifications

A specification is well formed when every match has exactly one path condition, no label is declared
where it is visible already, every label that is used is visible, no path condition ties an unknown
to itself, and both sides of each path condition arrive at the same type.

Labels become visible in this order: the given labels, then the unknown of each match, from its own
conditions on. The labels of an existential block are visible in that block only; a nested
projection sees the labels of the matches and projections around it. -/

namespace FactGraph

/-- The visible labels with their types, the latest first. -/
abbrev Scope : Type := List (String × String)

namespace Scope

/-- The type of a visible label. -/
def type? (scope : Scope) (name : String) : Option String := scope.lookup name

/-- Makes a label visible, in front of any other label of its name. -/
def bind (scope : Scope) (label : Label) : Scope := (label.name, label.type) :: scope

/-- Makes a label visible whose name must not be visible yet. -/
def declare (scope : Scope) (label : Label) : Except SpecificationError Scope :=
  match scope.type? label.name with
  | some _ => .error (.duplicateLabel label.name)
  | none => .ok (scope.bind label)

/-- Makes labels visible one after the other. -/
def declareAll (scope : Scope) : List Label → Except SpecificationError Scope
  | [] => .ok scope
  | label :: rest => do (← scope.declare label).declareAll rest

end Scope

/-! ### The checks -/

/-- Checks a path condition on an unknown that is visible. -/
def PathCondition.check (scope : Scope) (unknown : Label) (path : PathCondition) :
    Except SpecificationError Unit :=
  if path.labelRight = unknown.name then .error (.selfReference unknown.name)
  else
    match scope.type? path.labelRight with
    | none => .error (.unknownLabel path.labelRight)
    | some type =>
      let left := endType unknown.type path.rolesLeft
      let right := endType type path.rolesRight
      if left = right then .ok () else .error (.pathTypeMismatch unknown.name left right)

mutual

/-- Checks a condition on an unknown that is visible. -/
def Condition.check (scope : Scope) (unknown : Label) : Condition → Except SpecificationError Unit
  | .path path => path.check scope unknown
  | .existential _ block => do
    let _ ← Match.checkAll scope block
    return ()

/-- Checks a match; afterwards its unknown is visible. -/
def Match.check (scope : Scope) : Match → Except SpecificationError Scope
  | ⟨unknown, conditions⟩ => do
    let inner ← scope.declare unknown
    let count := (Match.paths ⟨unknown, conditions⟩).length
    if count ≠ 1 then .error (.pathConditionCount unknown.name count)
    Condition.checkAll inner unknown conditions
    return inner

/-- Checks matches one after the other; afterwards all their unknowns are visible. -/
def Match.checkAll (scope : Scope) : List Match → Except SpecificationError Scope
  | [] => .ok scope
  | m :: rest => do Match.checkAll (← m.check scope) rest

def Condition.checkAll (scope : Scope) (unknown : Label) :
    List Condition → Except SpecificationError Unit
  | [] => .ok ()
  | condition :: rest => do
    condition.check scope unknown
    Condition.checkAll scope unknown rest

end

/-- Checks that a label is visible. -/
def Scope.checkLabel (scope : Scope) (name : String) : Except SpecificationError Unit :=
  match scope.type? name with
  | some _ => .ok ()
  | none => .error (.unknownLabel name)

mutual

def Projection.check (scope : Scope) : Projection → Except SpecificationError Unit
  | .field _ label _ => scope.checkLabel label
  | .hash _ label => scope.checkLabel label
  | .fact _ label => scope.checkLabel label
  | .nested _ block projections => do
    let inner ← Match.checkAll scope block
    Projection.checkAll inner projections

def Projection.checkAll (scope : Scope) : List Projection → Except SpecificationError Unit
  | [] => .ok ()
  | projection :: rest => do
    projection.check scope
    Projection.checkAll scope rest

end

/-- Checks that a specification is well formed, and tells the first thing that is wrong. -/
def Specification.check (spec : Specification) : Except SpecificationError Unit := do
  let scope ← Scope.declareAll [] spec.given
  let scope ← Match.checkAll scope spec.body
  Projection.checkAll scope spec.projections

end FactGraph
