import FactGraph.Specification.Grammar
import FactGraph.Specification.Scope

/-! # Reading specifications

A text is read in three steps: the grammar gives a tree, the tree a specification, and the
specification has to be well formed. In the second step the side of a path condition that starts
from the unknown of its match becomes the left one, and a scalar reference is split at its first
dot into a label and a field. -/

namespace FactGraph

namespace Tree

/-- A path condition of a match, turned so that its left side starts from the unknown. -/
def Condition.orient (text : List Char) (unknown : String) (left : Nat) (first second : Side) :
    Except SpecificationError PathCondition :=
  if first.label = unknown then .ok ⟨first.roles, second.label, second.roles⟩
  else if second.label = unknown then .ok ⟨second.roles, first.label, first.roles⟩
  else .error (.unrelatedPath (Position.ofLeft text left) unknown)

mutual

/-- The condition that a tree stands for in the match of an unknown. -/
def Condition.read (text : List Char) (unknown : String) :
    Condition → Except SpecificationError FactGraph.Condition
  | .path left first second => do return .path (← Condition.orient text unknown left first second)
  | .existential holds block => do return .existential holds (← Clause.readAll text block)

/-- The match that a tree stands for. -/
def Clause.read (text : List Char) : Clause → Except SpecificationError Match
  | ⟨unknown, conditions⟩ => do return ⟨unknown, ← Condition.readAll text unknown.name conditions⟩

/-- The matches that trees stand for. -/
def Clause.readAll (text : List Char) : List Clause → Except SpecificationError (List Match)
  | [] => .ok []
  | clause :: rest => do
    let m ← clause.read text
    return m :: (← Clause.readAll text rest)

/-- The conditions that trees stand for in the match of an unknown. -/
def Condition.readAll (text : List Char) (unknown : String) :
    List Condition → Except SpecificationError (List FactGraph.Condition)
  | [] => .ok []
  | condition :: rest => do
    let c ← condition.read text unknown
    return c :: (← Condition.readAll text unknown rest)

end

/-- The projection under a name that a scalar stands for. -/
def Scalar.read (name : String) : Scalar → FactGraph.Projection
  | .hash label => .hash name label
  | .reference path =>
    let label := path.toList.takeWhile (· != '.')
    match path.toList.dropWhile (· != '.') with
    | [] => .fact name path
    | _ :: rest => .field name (String.ofList label) (String.ofList rest)

mutual

/-- The projection that a tree stands for. -/
def Projection.read (text : List Char) :
    Projection → Except SpecificationError FactGraph.Projection
  | .scalar name value => .ok (value.read name)
  | .nested name block projections => do
    let matched ← Clause.readAll text block
    return .nested name matched (← Projection.readAll text projections)

/-- The projections that trees stand for. -/
def Projection.readAll (text : List Char) :
    List Projection → Except SpecificationError (List FactGraph.Projection)
  | [] => .ok []
  | projection :: rest => do
    let p ← projection.read text
    return p :: (← Projection.readAll text rest)

end

/-- The specification that a tree stands for. -/
def Specification.read (text : List Char) (tree : Specification) :
    Except SpecificationError FactGraph.Specification := do
  let body ← Clause.readAll text tree.body
  let projections ← Projection.readAll text tree.projections
  return ⟨tree.given, body, projections⟩

end Tree

namespace Specification

/-- The tree of a text, or the error that names what was expected. -/
def treeOf (text : List Char) : Except SpecificationError Tree.Specification :=
  match Tree.ofText text with
  | .ok tree => .ok tree
  | .error attempts =>
    .error (.expected (Position.ofLeft text attempts.left) attempts.listed)

/-- The specification that characters write, which is well formed. -/
def ofChars (text : List Char) : Except SpecificationError Specification := do
  let tree ← treeOf text
  let spec ← tree.read text
  spec.check
  return spec

/-- The specification that a text writes, which is well formed. -/
def parse (text : String) : Except SpecificationError Specification := ofChars text.toList

end Specification

end FactGraph
