import FactGraph.Json.Record
import FactGraph.Plan.Basic

/-! # Join plans as JSON

A parameter is written as what it holds; the parts of a plan are records. Reading groups is bounded
by the height of the value. -/

namespace FactGraph

namespace Parameter

/-- A parameter as a number, a string or a list of numbers. -/
def toJson : Parameter → Json
  | integer value => .integer value
  | text value => .string value
  | integers values => .ofList .integer values

def ofJson? : Json → Option Parameter
  | .integer n => (Json.int64? (.integer n)).map integer
  | .string value => some (text value)
  | .array items => (Json.list? Json.int64? (.array items)).map integers
  | _ => none

end Parameter

namespace Plan

/-! ### Writing -/

def Input.toJson (input : Input) : Json :=
  .object [("label", .string input.label), ("fact_index", .ofNat input.slot),
    ("fact_type_id", .ofOption .integer input.typeId), ("fact_hash", .string input.hash),
    ("fact_type_parameter", .ofOption .ofNat input.typeParameter),
    ("fact_hash_parameter", .ofOption .ofNat input.hashParameter)]

def Fact.toJson (fact : Fact) : Json :=
  .object [("fact_index", .ofNat fact.slot), ("type", .string fact.type)]

def Output.toJson (output : Output) : Json :=
  .object [("label", .string output.label), ("type", .string output.type),
    ("fact_index", .ofNat output.slot)]

def Edge.toJson (edge : Edge) : Json :=
  .object [("edge_index", .ofNat edge.index),
    ("predecessor_fact_index", .ofNat edge.predecessor),
    ("successor_fact_index", .ofNat edge.successor),
    ("role_parameter", .ofNat edge.roleParameter)]

mutual

def Group.toJson : Group → Json
  | ⟨edges, groups⟩ =>
    .object [("edges", .ofList Edge.toJson edges),
      ("not_exists_conditions", .array (Group.toJsonAll groups))]

def Group.toJsonAll : List Group → List Json
  | [] => []
  | group :: rest => group.toJson :: Group.toJsonAll rest

end

def toJson (plan : Plan) : Json :=
  .object [("inputs", .ofList Input.toJson plan.inputs),
    ("parameters", .ofList Parameter.toJson plan.parameters),
    ("outputs", .ofList Output.toJson plan.outputs),
    ("facts", .ofList Fact.toJson plan.facts),
    ("edges", .ofList Edge.toJson plan.edges),
    ("not_exists_conditions", .array (Group.toJsonAll plan.groups))]

/-! ### Reading -/

def Input.ofJson? (value : Json) : Option Input := do
  let record ← value.record?
    ["label", "fact_index", "fact_type_id", "fact_hash", "fact_type_parameter",
      "fact_hash_parameter"]
  let label ← record.required "label" Json.string?
  let slot ← record.required "fact_index" Json.nat64?
  let typeId ← record.nullable "fact_type_id" Json.int64?
  let hash ← record.required "fact_hash" Json.string?
  let typeParameter ← record.nullable "fact_type_parameter" Json.nat64?
  let hashParameter ← record.nullable "fact_hash_parameter" Json.nat64?
  return ⟨label, slot, typeId, hash, typeParameter, hashParameter⟩

def Fact.ofJson? (value : Json) : Option Fact := do
  let record ← value.record? ["fact_index", "type"]
  let slot ← record.required "fact_index" Json.nat64?
  let type ← record.required "type" Json.string?
  return ⟨slot, type⟩

def Output.ofJson? (value : Json) : Option Output := do
  let record ← value.record? ["label", "type", "fact_index"]
  let label ← record.required "label" Json.string?
  let type ← record.required "type" Json.string?
  let slot ← record.required "fact_index" Json.nat64?
  return ⟨label, type, slot⟩

def Edge.ofJson? (value : Json) : Option Edge := do
  let record ← value.record?
    ["edge_index", "predecessor_fact_index", "successor_fact_index", "role_parameter"]
  let index ← record.required "edge_index" Json.nat64?
  let predecessor ← record.required "predecessor_fact_index" Json.nat64?
  let successor ← record.required "successor_fact_index" Json.nat64?
  let roleParameter ← record.required "role_parameter" Json.nat64?
  return ⟨index, predecessor, successor, roleParameter⟩

def Group.ofJsonBelow? : Nat → Json → Option Group
  | 0, _ => none
  | height + 1, value => do
    let record ← value.record? ["edges", "not_exists_conditions"]
    let edges ← record.required "edges" (Json.list? Edge.ofJson?)
    let groups ←
      record.required "not_exists_conditions" (Json.list? (Group.ofJsonBelow? height))
    return ⟨edges, groups⟩

def Group.ofJson? (value : Json) : Option Group := Group.ofJsonBelow? (value.height + 1) value

def ofJson? (value : Json) : Option Plan := do
  let record ← value.record?
    ["inputs", "parameters", "outputs", "facts", "edges", "not_exists_conditions"]
  let inputs ← record.required "inputs" (Json.list? Input.ofJson?)
  let parameters ← record.required "parameters" (Json.list? Parameter.ofJson?)
  let outputs ← record.required "outputs" (Json.list? Output.ofJson?)
  let facts ← record.required "facts" (Json.list? Fact.ofJson?)
  let edges ← record.required "edges" (Json.list? Edge.ofJson?)
  let groups ← record.required "not_exists_conditions" (Json.list? Group.ofJson?)
  return ⟨inputs, parameters, outputs, facts, edges, groups⟩

end Plan

end FactGraph
