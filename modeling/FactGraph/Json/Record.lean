import FactGraph.Json.Basic

/-! # Records and tagged values

A record is written as an object. Fields that it does not declare are passed over, whether or not
their values are readable, and a declared field must not stand twice. A record may also be written
as an array that lists the values of its fields in the order of their declaration; fields with a
default come last and may be left out.

A tagged value is a record that names its alternative in one of its fields, the tag; written as an
array, it names it in the first element. The tag may stand behind other fields, so a tagged value is
read as a whole before its alternative is known: all of it must be readable. A tagged value that
stands inside another one may give the number of its alternative instead, counted from 0. -/

namespace FactGraph.Json

/-- The declared fields that are present in a record, with their values. -/
structure Record where
  present : List (String × Json)
  /-- A record that is written as an array says nothing about absent fields. -/
  named : Bool

namespace Record

/-- The value of a field that must be present. -/
def required {α : Type} (record : Record) (name : String) (read : Json → Option α) : Option α :=
  (record.present.lookup name).bind read

/-- The value of a field that may be `null`, and may be absent from a record written by names. -/
def nullable {α : Type} (record : Record) (name : String) (read : Json → Option α) :
    Option (Option α) :=
  match record.present.lookup name with
  | some value => value.nullable? read
  | none => if record.named then some none else none

/-- The value of a field that has a default. -/
def withDefault {α : Type} (record : Record) (name : String) (default : α)
    (read : Json → Option α) : Option α :=
  match record.present.lookup name with
  | some value => read value
  | none => some default

end Record

/-- Reads a record that declares `fields`, followed by the fields `defaulted` that have a
default. -/
def recordWithDefaults? (fields defaulted : List String) : Json → Option Record
  | object entries =>
    let present := entries.filter fun entry => (fields ++ defaulted).contains entry.1
    if (present.map Prod.fst).Nodup then some ⟨present, true⟩ else none
  | array items =>
    if fields.length ≤ items.length ∧ items.length ≤ (fields ++ defaulted).length then
      some ⟨(fields ++ defaulted).zip items, false⟩
    else none
  | _ => none

/-- Reads a record that declares `fields`, none of which has a default. -/
def record? (fields : List String) (value : Json) : Option Record :=
  recordWithDefaults? fields [] value

/-- The alternative that a tag stands for; `inside` tells whether it belongs to a tagged value
inside another one. -/
def alternative? (alternatives : List String) (inside : Bool) : Json → Option String
  | string name => if alternatives.contains name then some name else none
  | integer n => if inside ∧ 0 ≤ n then alternatives[n.toNat]? else none
  | _ => none

/-- The alternative that the tag of a value names, and the record that is left without the tag. -/
def splitTag? (tag : String) (alternatives : List String) (inside : Bool) :
    Json → Option (String × Json)
  | object entries =>
    match entries.filter fun entry => entry.1 == tag with
    | [(_, value)] =>
      (alternative? alternatives inside value).map fun name =>
        (name, object (entries.filter fun entry => entry.1 != tag))
    | _ => none
  | array (value :: rest) =>
    (alternative? alternatives inside value).map fun name => (name, array rest)
  | _ => none

/-- The alternative of a tagged value, and the record that is left without the tag. What stands
inside another tagged value is readable along with it. -/
def tagged? (tag : String) (alternatives : List String) (inside : Bool) (value : Json) :
    Option (String × Json) :=
  if inside || value.isReadable then splitTag? tag alternatives inside value else none

/-- A tagged value as an object, the tag first. -/
def tagged (tag name : String) (fields : List (String × Json)) : Json :=
  object ((tag, string name) :: fields)

end FactGraph.Json
