import FactGraph.Json.Record
import FactGraph.Specification.Vocabulary

/-! # Specifications as JSON

Every part of a specification is a record; conditions and projections name their alternative in the
field `type`. Reading is bounded by the height of the value, since every record that stands inside
another one is lower. -/

namespace FactGraph

/-! ### Writing -/

def Label.toJson (label : Label) : Json :=
  .object [("name", .string label.name), ("type", .string label.type)]

def Role.toJson (role : Role) : Json :=
  .object [("name", .string role.name), ("target_type", .string role.target)]

/-- The fields of a path condition. -/
def PathCondition.fields (path : PathCondition) : List (String × Json) :=
  [("roles_left", .ofList Role.toJson path.rolesLeft), ("label_right", .string path.labelRight),
    ("roles_right", .ofList Role.toJson path.rolesRight)]

mutual

def Condition.toJson : Condition → Json
  | .path path => .tagged "type" "path" path.fields
  | .existential holds block =>
    .tagged "type" "existential"
      [("exists", .bool holds), ("matches", .array (Match.toJsonAll block))]

def Match.toJson : Match → Json
  | ⟨unknown, conditions⟩ =>
    .object [("unknown", unknown.toJson), ("conditions", .array (Condition.toJsonAll conditions))]

def Match.toJsonAll : List Match → List Json
  | [] => []
  | m :: rest => m.toJson :: Match.toJsonAll rest

def Condition.toJsonAll : List Condition → List Json
  | [] => []
  | condition :: rest => condition.toJson :: Condition.toJsonAll rest

end

mutual

def Projection.toJson : Projection → Json
  | .field name label path =>
    .tagged "type" "field"
      [("name", .string name), ("label", .string label), ("field", .string path)]
  | .hash name label => .tagged "type" "hash" [("name", .string name), ("label", .string label)]
  | .fact name label => .tagged "type" "fact" [("name", .string name), ("label", .string label)]
  | .nested name block projections =>
    .tagged "type" "specification"
      [("name", .string name), ("matches", .array (Match.toJsonAll block)),
        ("projections", .array (Projection.toJsonAll projections))]

def Projection.toJsonAll : List Projection → List Json
  | [] => []
  | projection :: rest => projection.toJson :: Projection.toJsonAll rest

end

def Specification.toJson (spec : Specification) : Json :=
  .object [("given", .ofList Label.toJson spec.given),
    ("matches", .array (Match.toJsonAll spec.body)),
    ("projections", .array (Projection.toJsonAll spec.projections))]

def RoleDefinition.toJson (role : RoleDefinition) : Json :=
  .object [("defining_fact_type", .string role.definingType), ("name", .string role.name),
    ("target_type", .string role.target)]

/-! ### Reading -/

def Label.ofJson? (value : Json) : Option Label := do
  let record ← value.record? ["name", "type"]
  let name ← record.required "name" Json.string?
  let type ← record.required "type" Json.string?
  return ⟨name, type⟩

def Role.ofJson? (value : Json) : Option Role := do
  let record ← value.record? ["name", "target_type"]
  let name ← record.required "name" Json.string?
  let target ← record.required "target_type" Json.string?
  return ⟨name, target⟩

def PathCondition.ofJson? (value : Json) : Option PathCondition := do
  let record ← value.record? ["roles_left", "label_right", "roles_right"]
  let rolesLeft ← record.required "roles_left" (Json.list? Role.ofJson?)
  let labelRight ← record.required "label_right" Json.string?
  let rolesRight ← record.required "roles_right" (Json.list? Role.ofJson?)
  return ⟨rolesLeft, labelRight, rolesRight⟩

mutual

/-- The condition that a value of less than the given height holds; `inside` tells whether the value
stands inside another tagged one. -/
def Condition.ofJsonBelow? (inside : Bool) : Nat → Json → Option Condition
  | 0, _ => none
  | height + 1, value => do
    let (tag, rest) ← value.tagged? "type" ["path", "existential"] inside
    match tag with
    | "path" => return .path (← PathCondition.ofJson? rest)
    | "existential" => do
      let record ← rest.record? ["exists", "matches"]
      let holds ← record.required "exists" Json.bool?
      let block ← record.required "matches" (Json.list? (Match.ofJsonBelow? true height))
      return .existential holds block
    | _ => none

/-- The match that a value of less than the given height holds; `inside` tells whether the value
stands inside a tagged one. -/
def Match.ofJsonBelow? (inside : Bool) : Nat → Json → Option Match
  | 0, _ => none
  | height + 1, value => do
    let record ← value.record? ["unknown", "conditions"]
    let unknown ← record.required "unknown" Label.ofJson?
    let conditions ←
      record.required "conditions" (Json.list? (Condition.ofJsonBelow? inside height))
    return ⟨unknown, conditions⟩

end

def Condition.ofJson? (value : Json) : Option Condition :=
  Condition.ofJsonBelow? false (value.height + 1) value

/-- The match that a value holds; `inside` tells whether the value stands inside a tagged one. -/
def Match.ofJson? (inside : Bool) (value : Json) : Option Match :=
  Match.ofJsonBelow? inside (value.height + 1) value

/-- The projection that a value of less than the given height holds; `inside` tells whether the
value stands inside another tagged one. -/
def Projection.ofJsonBelow? (inside : Bool) : Nat → Json → Option Projection
  | 0, _ => none
  | height + 1, value => do
    let (tag, rest) ← value.tagged? "type" ["field", "hash", "fact", "specification"] inside
    match tag with
    | "field" => do
      let record ← rest.record? ["name", "label", "field"]
      let name ← record.required "name" Json.string?
      let label ← record.required "label" Json.string?
      let path ← record.required "field" Json.string?
      return .field name label path
    | "hash" => do
      let record ← rest.record? ["name", "label"]
      let name ← record.required "name" Json.string?
      let label ← record.required "label" Json.string?
      return .hash name label
    | "fact" => do
      let record ← rest.record? ["name", "label"]
      let name ← record.required "name" Json.string?
      let label ← record.required "label" Json.string?
      return .fact name label
    | "specification" => do
      let record ← rest.record? ["name", "matches", "projections"]
      let name ← record.required "name" Json.string?
      let block ← record.required "matches" (Json.list? (Match.ofJson? true))
      let projections ←
        record.required "projections" (Json.list? (Projection.ofJsonBelow? true height))
      return .nested name block projections
    | _ => none

def Projection.ofJson? (value : Json) : Option Projection :=
  Projection.ofJsonBelow? false (value.height + 1) value

def Specification.ofJson? (value : Json) : Option Specification := do
  let record ← value.record? ["given", "matches", "projections"]
  let given ← record.required "given" (Json.list? Label.ofJson?)
  let body ← record.required "matches" (Json.list? (Match.ofJson? false))
  let projections ← record.required "projections" (Json.list? Projection.ofJson?)
  return ⟨given, body, projections⟩

end FactGraph
