import FactGraph.Json.Basic

/-! # Numbers

A number is written as digits without a zero in front of others, with or without a point and further
digits behind it, and with or without an exponent of ten.

Its magnitude is judged as a floating-point number of 64 bits. Its digits make a significand as long
as this stays below `2 ^ 64`. The significand and the power of ten that belongs to it are rounded to
53 binary digits, and so is their product, each to the nearest and from the middle to the even
neighbour. A number whose product goes beyond the largest floating-point number is unreadable. -/

namespace FactGraph.Json

/-- A number as it is written. -/
structure Numeral where
  negative : Bool
  /-- The digits in front of the point. -/
  whole : List Char
  /-- The digits behind the point; without a point there are none. -/
  places : List Char
  /-- The exponent of ten: whether it is negative, and its digits. -/
  exponent : Option (Bool × List Char)

/-! ### Digits -/

def digitValue (c : Char) : Nat := c.toNat - 48

/-- The number that some digits write. -/
def ofDigits (digits : List Char) : Nat := digits.foldl (fun n c => 10 * n + digitValue c) 0

/-- Appends digits to a number as long as it stays below `2 ^ 64`, and gives the number and the
digits that are left over. -/
def appendDigits (n : Nat) : List Char → Nat × List Char
  | [] => (n, [])
  | c :: cs =>
    let longer := 10 * n + digitValue c
    if longer < UInt64.size then appendDigits longer cs else (n, c :: cs)

/-! ### Magnitude -/

/-- A number rounded to its first `bits` binary digits: to the nearest, and from the middle to the
even neighbour. -/
def roundToBits (bits n : Nat) : Nat :=
  let unit := Nat.pow 2 (n.log2 + 1 - bits)
  let quotient := n / unit
  let remainder := n % unit
  if 2 * remainder < unit ∨ (2 * remainder = unit ∧ quotient % 2 = 0) then quotient * unit
  else (quotient + 1) * unit

/-- The least number that is rounded to more than the largest floating-point number: half a unit of
its last place lies between the two. -/
def overflowBound : Nat := Nat.pow 2 1024 - Nat.pow 2 970

namespace Numeral

/-- The exponent of ten as it is written. -/
def shift (numeral : Numeral) : Int :=
  match numeral.exponent with
  | none => 0
  | some (negative, digits) => if negative then -(ofDigits digits : Int) else ofDigits digits

/-- The significand and the exponent of ten that belongs to it. A digit that is left over in front
of the point counts in the exponent, one behind the point has no weight. -/
def scientific (numeral : Numeral) : Nat × Int :=
  let (whole, leftOver) := appendDigits 0 numeral.whole
  let (significand, dropped) := appendDigits whole numeral.places
  (significand, numeral.shift + leftOver.length - (numeral.places.length - dropped.length : Nat))

/-- The number is within the range of the floating-point numbers. -/
def isFinite (numeral : Numeral) : Bool :=
  let (significand, exponent) := numeral.scientific
  significand == 0 || exponent ≤ 0 ||
    exponent ≤ 308 &&
      roundToBits 53 significand * roundToBits 53 (Nat.pow 10 exponent.toNat) < overflowBound

/-- The number is written as an integer. Zero with a minus sign is none. -/
def isInteger (numeral : Numeral) : Bool :=
  numeral.places.isEmpty && numeral.exponent.isNone &&
    !(numeral.negative && numeral.whole.all (· == '0'))

/-- The text of a number; an exponent has a small letter and no plus sign. -/
def text (numeral : Numeral) : String :=
  let sign (negative : Bool) := if negative then ['-'] else []
  let places := if numeral.places.isEmpty then [] else '.' :: numeral.places
  let exponent := match numeral.exponent with
    | none => []
    | some (negative, digits) => 'e' :: (sign negative ++ digits)
  String.ofList (sign numeral.negative ++ numeral.whole ++ places ++ exponent)

/-- The value that a number stands for. -/
def toJson (numeral : Numeral) : Json :=
  if !numeral.isFinite then unreadable
  else if numeral.isInteger then
    let magnitude := ofDigits numeral.whole
    integer (if numeral.negative then -(magnitude : Int) else magnitude)
  else fraction numeral.text

end Numeral

/-! ### Reading

The readers answer with what they read and the characters behind it. -/

/-- The digits at the start, of which there must be at least one. -/
def readDigits (cs : List Char) : Option (List Char × List Char) :=
  match cs.takeWhile Char.isDigit with
  | [] => none
  | digits => some (digits, cs.dropWhile Char.isDigit)

/-- A whole part: digits without a zero in front of others. -/
def readWhole (cs : List Char) : Option (List Char × List Char) :=
  match readDigits cs with
  | some ('0' :: _ :: _, _) => none
  | whole => whole

/-- The digits behind a point, if there is a point. -/
def readPlaces : List Char → Option (List Char × List Char)
  | '.' :: cs => readDigits cs
  | cs => some ([], cs)

/-- An exponent, if there is one. -/
def readExponent : List Char → Option (Option (Bool × List Char) × List Char)
  | 'e' :: '-' :: cs | 'E' :: '-' :: cs =>
    (readDigits cs).map fun (digits, rest) => (some (true, digits), rest)
  | 'e' :: '+' :: cs | 'E' :: '+' :: cs | 'e' :: cs | 'E' :: cs =>
    (readDigits cs).map fun (digits, rest) => (some (false, digits), rest)
  | cs => some (none, cs)

/-- A number without its sign. -/
def readUnsigned (negative : Bool) (cs : List Char) : Option (Numeral × List Char) := do
  let (whole, cs) ← readWhole cs
  let (places, cs) ← readPlaces cs
  let (exponent, cs) ← readExponent cs
  return (⟨negative, whole, places, exponent⟩, cs)

def readNumeral : List Char → Option (Numeral × List Char)
  | '-' :: cs => readUnsigned true cs
  | cs => readUnsigned false cs

end FactGraph.Json
