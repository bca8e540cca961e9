import FactGraph.Specification.Basic

/-! # Printing specifications

Every match, condition and projection stands on a line of its own, indented by four blanks a level.
A single unnamed scalar projection follows the arrow directly; any other projections stand in a
block. -/

namespace FactGraph

/-- The indentation of a line that stands `depth` levels deep. -/
def indentation (depth : Nat) : String := "".pushn ' ' (4 * depth)

/-- A label as it is declared. -/
def Label.render (label : Label) : String := label.name ++ ": " ++ label.type

/-- A role with the arrow in front of it. -/
def Role.render (role : Role) : String := "->" ++ role.name ++ ": " ++ role.target

/-- Roles one behind the other. -/
def renderRoles (roles : List Role) : String := String.join (roles.map Role.render)

/-- A path condition on an unknown, whose side stands first. -/
def PathCondition.render (unknown : String) (path : PathCondition) : String :=
  unknown ++ renderRoles path.rolesLeft ++ " = " ++ path.labelRight ++ renderRoles path.rolesRight

mutual

/-- A condition on an unknown, in a line that stands `depth` levels deep. -/
def Condition.render (depth : Nat) (unknown : String) : Condition → String
  | .path path => path.render unknown
  | .existential holds block =>
    (if holds then "E " else "!E ") ++ "\x7b\n" ++ Match.renderAll (depth + 1) block ++
      indentation depth ++ "\x7d"

/-- A match on its lines, the first of which stands `depth` levels deep. -/
def Match.render (depth : Nat) : Match → String
  | ⟨unknown, conditions⟩ =>
    indentation depth ++ unknown.render ++ " [\n" ++
      Condition.renderAll (depth + 1) unknown.name conditions ++ indentation depth ++ "]\n"

/-- Matches on their lines. -/
def Match.renderAll (depth : Nat) : List Match → String
  | [] => ""
  | m :: rest => m.render depth ++ Match.renderAll depth rest

/-- Conditions on their lines. -/
def Condition.renderAll (depth : Nat) (unknown : String) : List Condition → String
  | [] => ""
  | condition :: rest =>
    indentation depth ++ condition.render depth unknown ++ "\n" ++
      Condition.renderAll depth unknown rest

end

/-- A block of matches that ends in a line `depth` levels deep. -/
def renderBlock (depth : Nat) (block : List Match) : String :=
  "\x7b\n" ++ Match.renderAll (depth + 1) block ++ indentation depth ++ "\x7d"

/-- What a scalar projection reports; nothing for a nested one. -/
def Projection.renderScalar : Projection → String
  | .field _ label path => label ++ "." ++ path
  | .hash _ label => "#" ++ label
  | .fact _ label => label
  | .nested _ _ _ => ""

/-- Whether a projection is written without its name when it stands alone. -/
def Projection.isBare : Projection → Bool
  | .nested _ _ _ => false
  | scalar => scalar.name.isEmpty

/-- The arrow and what stands behind it, from the lines of the projections in a block. -/
def renderYield (depth : Nat) (projections : List Projection) (lines : String) : String :=
  match projections with
  | [] => ""
  | [single] =>
    if single.isBare then " => " ++ single.renderScalar
    else " => \x7b\n" ++ lines ++ indentation depth ++ "\x7d"
  | _ => " => \x7b\n" ++ lines ++ indentation depth ++ "\x7d"

mutual

/-- A projection in a block whose lines stand `depth` levels deep. -/
def Projection.render (depth : Nat) : Projection → String
  | .nested name block projections =>
    name ++ " " ++ renderBlock depth block ++
      renderYield depth projections (Projection.renderAll (depth + 1) projections)
  | .field name label path => name ++ " = " ++ label ++ "." ++ path
  | .hash name label => name ++ " = #" ++ label
  | .fact name label => name ++ " = " ++ label

/-- The lines of a block of projections. -/
def Projection.renderAll (depth : Nat) : List Projection → String
  | [] => ""
  | projection :: rest =>
    indentation depth ++ projection.render depth ++ "\n" ++ Projection.renderAll depth rest

end

/-- The text of a specification. -/
def Specification.render (spec : Specification) : String :=
  "(" ++ ", ".intercalate (spec.given.map Label.render) ++ ") " ++ renderBlock 0 spec.body ++
    renderYield 0 spec.projections (Projection.renderAll 1 spec.projections)

end FactGraph
