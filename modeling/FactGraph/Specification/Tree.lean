import FactGraph.Specification.Basic

/-! # Syntax trees

A tree holds what a text says before it is known which side of a path condition is the unknown's.
It keeps the place of every path condition, counted in characters to the end of the text. -/

namespace FactGraph.Tree

/-- A label and the roles that lead up from it. -/
structure Side where
  label : String
  roles : List Role
  deriving DecidableEq, Repr

mutual

/-- A condition in a match. -/
inductive Condition where
  /-- Two sides joined by an equals sign. -/
  | path (left : Nat) (first second : Side)
  | existential (holds : Bool) (block : List Clause)

/-- A match: its unknown and what stands in its brackets. -/
structure Clause where
  unknown : Label
  conditions : List Condition

end

/-- A projection without a block of its own. -/
inductive Scalar where
  | hash (label : String)
  /-- A label, or a label and a field with a dot between them. -/
  | reference (name : String)
  deriving DecidableEq, Repr

/-- An element of a projection. A scalar that stands alone has the empty name. -/
inductive Projection where
  | scalar (name : String) (value : Scalar)
  | nested (name : String) (block : List Clause) (projections : List Projection)

/-- The whole text. -/
structure Specification where
  given : List Label
  body : List Clause
  projections : List Projection

end FactGraph.Tree
