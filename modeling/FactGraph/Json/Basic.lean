/-! # JSON values

A value keeps what a JSON text says of it: the fields of an object stand in the order of the text
and may repeat, and an integer is told apart from a number written with a fraction or an exponent.
`-0` counts among the latter, because it is no integer of its own.

What a text writes may have no meaning, though it keeps to the grammar: a string with half of a
surrogate pair, a number beyond all floating-point numbers, or too many arrays and objects inside
each other. Such a value is unreadable. It does no harm in a field that nobody reads. -/

namespace FactGraph

/-- A JSON value. -/
inductive Json where
  | null
  | bool (value : Bool)
  | integer (value : Int)
  /-- A number that is not written as an integer, kept as it is written. -/
  | fraction (digits : String)
  | string (text : String)
  | array (items : List Json)
  | object (fields : List (String × Json))
  /-- A value that is written correctly but has no meaning. -/
  | unreadable
  deriving Inhabited

namespace Json

/-! ### Height -/

mutual

/-- The number of arrays and objects on the longest way down into a value. -/
def height : Json → Nat
  | array items => heightItems items + 1
  | object fields => heightFields fields + 1
  | _ => 0

/-- The greatest height among some values. -/
def heightItems : List Json → Nat
  | [] => 0
  | item :: rest => max (height item) (heightItems rest)

/-- The greatest height among the values of some fields. -/
def heightFields : List (String × Json) → Nat
  | [] => 0
  | (_, value) :: rest => max (height value) (heightFields rest)

end

/-! ### Readability -/

mutual

/-- A value has a meaning with all its parts. -/
def isReadable : Json → Bool
  | array items => areReadable items
  | object fields => haveReadable fields
  | unreadable => false
  | _ => true

/-- All of some values have a meaning. -/
def areReadable : List Json → Bool
  | [] => true
  | item :: rest => isReadable item && areReadable rest

/-- The values of some fields have a meaning. -/
def haveReadable : List (String × Json) → Bool
  | [] => true
  | (_, value) :: rest => isReadable value && haveReadable rest

end

/-! ### Building values -/

def ofNat (n : Nat) : Json := integer n

/-- A list as an array of encoded elements. -/
def ofList {α : Type} (encode : α → Json) (items : List α) : Json := array (items.map encode)

/-- A missing element is `null`. -/
def ofOption {α : Type} (encode : α → Json) : Option α → Json
  | none => null
  | some a => encode a

/-! ### Reading scalars and lists -/

def string? : Json → Option String
  | string text => some text
  | _ => none

def bool? : Json → Option Bool
  | bool value => some value
  | _ => none

/-- The signed integer of 64 bits that a value is. -/
def int64? : Json → Option Int
  | integer n => if Int64.minValue.toInt ≤ n ∧ n ≤ Int64.maxValue.toInt then some n else none
  | _ => none

/-- The unsigned integer below `bound` that a value is. -/
def natBelow? (bound : Nat) : Json → Option Nat
  | integer n => if 0 ≤ n ∧ n < bound then some n.toNat else none
  | _ => none

/-- The unsigned integer of 64 bits that a value is. -/
def nat64? : Json → Option Nat := natBelow? UInt64.size

/-- The unsigned integer of 32 bits that a value is. -/
def nat32? : Json → Option Nat := natBelow? UInt32.size

/-- The elements of an array, each of them read. -/
def list? {α : Type} (read : Json → Option α) : Json → Option (List α)
  | array items => items.mapM read
  | _ => none

/-- `null`, or else a value that can be read. -/
def nullable? {α : Type} (read : Json → Option α) : Json → Option (Option α)
  | null => some none
  | value => (read value).map some

end Json

end FactGraph
