import FactGraph.Json.Reader
import FactGraph.Json.Record
import FactGraph.Settings.Basic

/-! # Settings as JSON

Every part of the settings is a record. All fields of a file have defaults, as have the roles of a
fact type and the users of a rule. -/

namespace FactGraph

/-! ### Writing -/

def RoleSettings.toJson (role : RoleSettings) : Json :=
  .object [("name", .string role.name), ("id", .integer role.id)]

def FactTypeSettings.toJson (type : FactTypeSettings) : Json :=
  .object [("name", .string type.name), ("id", .integer type.id),
    ("roles", .ofList RoleSettings.toJson type.roles)]

def CatalogSettings.toJson (catalog : CatalogSettings) : Json :=
  .object [("fact_types", .ofList FactTypeSettings.toJson catalog.factTypes)]

def RuleSettings.toJson (rule : RuleSettings) : Json :=
  .object [("specification", .string rule.specification), ("user", .ofOption .string rule.user)]

def Settings.toJson (settings : Settings) : Json :=
  .object [("catalog", .ofOption CatalogSettings.toJson settings.catalog),
    ("rules", .ofList RuleSettings.toJson settings.rules), ("limit", .ofNat settings.limit)]

/-! ### Reading -/

def RoleSettings.ofJson? (value : Json) : Option RoleSettings := do
  let record ← value.record? ["name", "id"]
  let name ← record.required "name" Json.string?
  let id ← record.required "id" Json.int64?
  return ⟨name, id⟩

def FactTypeSettings.ofJson? (value : Json) : Option FactTypeSettings := do
  let record ← value.recordWithDefaults? ["name", "id"] ["roles"]
  let name ← record.required "name" Json.string?
  let id ← record.required "id" Json.int64?
  let roles ← record.withDefault "roles" [] (Json.list? RoleSettings.ofJson?)
  return ⟨name, id, roles⟩

def CatalogSettings.ofJson? (value : Json) : Option CatalogSettings := do
  let record ← value.recordWithDefaults? [] ["fact_types"]
  let factTypes ← record.withDefault "fact_types" [] (Json.list? FactTypeSettings.ofJson?)
  return ⟨factTypes⟩

def RuleSettings.ofJson? (value : Json) : Option RuleSettings := do
  let record ← value.recordWithDefaults? ["specification"] ["user"]
  let specification ← record.required "specification" Json.string?
  let user ← record.withDefault "user" none (Json.nullable? Json.string?)
  return ⟨specification, user⟩

def Settings.ofJson? (value : Json) : Option Settings := do
  let record ← value.recordWithDefaults? [] ["catalog", "rules", "limit"]
  let catalog ← record.withDefault "catalog" none (Json.nullable? CatalogSettings.ofJson?)
  let rules ← record.withDefault "rules" [] (Json.list? RuleSettings.ofJson?)
  let limit ← record.withDefault "limit" Settings.defaultLimit Json.nat32?
  return ⟨catalog, rules, limit⟩

/-- The settings in a file of a name, whose text is missing if there is no such file. -/
def Settings.load (file : String) (text : Option String) : Except SettingsError Settings :=
  match text with
  | none => .error (.unreadable file)
  | some text =>
    match (Json.parse? text).bind Settings.ofJson? with
    | none => .error (.malformed file)
    | some settings => .ok settings

end FactGraph
