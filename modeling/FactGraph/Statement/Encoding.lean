import FactGraph.Plan.Encoding
import FactGraph.Statement.OfPlan

/-! # Statements as JSON -/

namespace FactGraph

def ResultColumn.toJson (column : ResultColumn) : Json :=
  .object [("name", .string column.name), ("type", .string column.type),
    ("column", .string column.column)]

def ResultColumn.ofJson? (value : Json) : Option ResultColumn := do
  let record ← value.record? ["name", "type", "column"]
  let name ← record.required "name" Json.string?
  let type ← record.required "type" Json.string?
  let column ← record.required "column" Json.string?
  return ⟨name, type, column⟩

def SqlQuery.toJson (query : SqlQuery) : Json :=
  .object [("sql", .string query.sql), ("parameters", .ofList Parameter.toJson query.parameters),
    ("labels", .ofList ResultColumn.toJson query.columns)]

def SqlQuery.ofJson? (value : Json) : Option SqlQuery := do
  let record ← value.record? ["sql", "parameters", "labels"]
  let sql ← record.required "sql" Json.string?
  let parameters ← record.required "parameters" (Json.list? Parameter.ofJson?)
  let columns ← record.required "labels" (Json.list? ResultColumn.ofJson?)
  return ⟨sql, parameters, columns⟩

end FactGraph
