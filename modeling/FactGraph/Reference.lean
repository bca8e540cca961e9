import FactGraph.Json.Record

/-! # References to facts

A fact is identified by its type and the hash of its contents. A reference is written `Type@hash`;
since a hash may hold the separator itself, only the first one splits. A bookmark is the place at
which the reading of a result was left. -/

namespace FactGraph

/-! ### References -/

/-- A fact, by its type and the hash of its contents. -/
structure FactReference where
  type : String
  hash : String
  deriving DecidableEq, Repr

/-- Why a text is no reference. -/
inductive ReferenceError where
  | noSeparator (text : String)
  | missingPart (text : String)
  deriving DecidableEq, Repr

namespace ReferenceError

def message : ReferenceError → String
  | noSeparator text => "Invalid fact reference: expected Type@hash, got " ++ text
  | missingPart text => "Invalid fact reference: type and hash must both be present in " ++ text

end ReferenceError

namespace FactReference

/-- The character between type and hash. -/
def separator : Char := '@'

/-- A reference as it is written. -/
def render (reference : FactReference) : String :=
  reference.type ++ String.singleton separator ++ reference.hash

/-- The reference that a text writes: what stands before and behind its first separator. -/
def ofText (text : String) : Except ReferenceError FactReference :=
  let type := text.toList.takeWhile (· != separator)
  match text.toList.dropWhile (· != separator) with
  | [] => .error (.noSeparator text)
  | _ :: hash =>
    if type.isEmpty || hash.isEmpty then .error (.missingPart text)
    else .ok ⟨String.ofList type, String.ofList hash⟩

/-- References are ordered by type, then by hash. -/
def le (a b : FactReference) : Bool :=
  decide (a.type < b.type) || (a.type == b.type && decide (a.hash ≤ b.hash))

/-- References in their order. -/
def sort (references : List FactReference) : List FactReference := references.mergeSort le

def toJson (reference : FactReference) : Json :=
  .object [("type", .string reference.type), ("hash", .string reference.hash)]

def ofJson? (value : Json) : Option FactReference := do
  let record ← value.record? ["type", "hash"]
  let type ← record.required "type" Json.string?
  let hash ← record.required "hash" Json.string?
  return ⟨type, hash⟩

end FactReference

/-! ### Bookmarks -/

/-- The ids of the last row that was read, in descending order. The empty bookmark stands before
the first row. -/
structure FactBookmark where
  factIds : List Int
  deriving DecidableEq, Repr

namespace FactBookmark

/-- The bookmark before the first row. -/
def start : FactBookmark := ⟨[]⟩

/-- Whether a bookmark stands before the first row. -/
def isStart (bookmark : FactBookmark) : Bool := bookmark.factIds.isEmpty

/-- A bookmark as the list of its ids. -/
def toJson (bookmark : FactBookmark) : Json := .ofList .integer bookmark.factIds

/-- The bookmark that a list of ids holds. -/
def ofJson? (value : Json) : Option FactBookmark :=
  (value.list? Json.int64?).map fun factIds => ⟨factIds⟩

end FactBookmark

end FactGraph
