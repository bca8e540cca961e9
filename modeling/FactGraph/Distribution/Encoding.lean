import FactGraph.Distribution.Assessment
import FactGraph.Json.Record

/-! # Assessments as JSON

An assessment names its outcome in the field `outcome`. -/

namespace FactGraph.Assessment

def toJson : Assessment → Json
  | permit => .tagged "outcome" "permit" []
  | deny reason depth =>
    .tagged "outcome" "deny" [("reason", .string reason), ("depth", .ofNat depth)]

def ofJson? (value : Json) : Option Assessment := do
  let (name, rest) ← value.tagged? "outcome" ["permit", "deny"] false
  match name with
  | "permit" => do
    let _ ← rest.record? []
    return permit
  | "deny" => do
    let record ← rest.record? ["reason", "depth"]
    let reason ← record.required "reason" Json.string?
    let depth ← record.required "depth" Json.nat64?
    return deny reason depth
  | _ => none

end FactGraph.Assessment
