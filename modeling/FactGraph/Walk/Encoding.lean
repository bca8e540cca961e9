import FactGraph.Json.Record
import FactGraph.Walk.Basic

/-! # Walks as JSON

Walks, steps and obligations are records; a direction is written by its name. Reading is bounded by
the height of the value. -/

namespace FactGraph

/-! ### Writing -/

def Direction.toJson (direction : Direction) : Json := .string direction.name

mutual

def Walk.toJson : Walk → Json
  | ⟨type, steps, obligations⟩ =>
    .object [("type", .string type), ("steps", .array (Step.toJsonAll steps)),
      ("conditions", .array (Obligation.toJsonAll obligations))]

def Step.toJson : Step → Json
  | ⟨direction, role, next⟩ =>
    .object [("direction", direction.toJson), ("role", .string role), ("next", next.toJson)]

def Obligation.toJson : Obligation → Json
  | ⟨holds, step⟩ => .object [("exists", .bool holds), ("step", step.toJson)]

def Step.toJsonAll : List Step → List Json
  | [] => []
  | step :: rest => step.toJson :: Step.toJsonAll rest

def Obligation.toJsonAll : List Obligation → List Json
  | [] => []
  | obligation :: rest => obligation.toJson :: Obligation.toJsonAll rest

end

/-! ### Reading -/

def Direction.ofName? (name : String) : Option Direction :=
  [predecessor, successor].find? fun direction => direction.name == name

/-- The direction that a value holds: its name, or an object that maps the name to `null`. -/
def Direction.ofJson? : Json → Option Direction
  | .string name => ofName? name
  | .object [(name, .null)] => ofName? name
  | _ => none

mutual

def Walk.ofJsonBelow? : Nat → Json → Option Walk
  | 0, _ => none
  | height + 1, value => do
    let record ← value.record? ["type", "steps", "conditions"]
    let type ← record.required "type" Json.string?
    let steps ← record.required "steps" (Json.list? (Step.ofJsonBelow? height))
    let obligations ← record.required "conditions" (Json.list? (Obligation.ofJsonBelow? height))
    return ⟨type, steps, obligations⟩

def Step.ofJsonBelow? : Nat → Json → Option Step
  | 0, _ => none
  | height + 1, value => do
    let record ← value.record? ["direction", "role", "next"]
    let direction ← record.required "direction" Direction.ofJson?
    let role ← record.required "role" Json.string?
    let next ← record.required "next" (Walk.ofJsonBelow? height)
    return ⟨direction, role, next⟩

def Obligation.ofJsonBelow? : Nat → Json → Option Obligation
  | 0, _ => none
  | height + 1, value => do
    let record ← value.record? ["exists", "step"]
    let holds ← record.required "exists" Json.bool?
    let step ← record.required "step" (Step.ofJsonBelow? height)
    return ⟨holds, step⟩

end

def Walk.ofJson? (value : Json) : Option Walk := Walk.ofJsonBelow? (value.height + 1) value

end FactGraph
