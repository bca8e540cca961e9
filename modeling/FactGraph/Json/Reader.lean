import FactGraph.Json.Number

/-! # Reading JSON texts

A text holds exactly one value, with blanks around it and between its parts. Strings hold no bare
control characters.

Some values keep to the grammar and are unreadable all the same. An escape writes a code unit, and
two halves of a surrogate pair make one character; a string is unreadable if a half stands alone in
it, and so is an object if this happens in a name. At most `maxDepth` arrays and objects may stand
inside each other; further inside they are unreadable.

The arrays and objects that are open are kept in a list, so the depth of a text is no matter.
Reading goes in steps, each of which takes at least one character. -/

namespace FactGraph.Json

/-- The greatest number of readable arrays and objects inside each other. -/
def maxDepth : Nat := 127

/-- Blanks between the parts of a text. -/
def isBlank (c : Char) : Bool := c == ' ' || c == '\n' || c == '\t' || c == '\r'

/-- The characters behind the blanks at the start. -/
def skipBlanks (cs : List Char) : List Char := cs.dropWhile isBlank

/-! ### Strings -/

/-- The value of a hexadecimal digit. -/
def hexValue? (c : Char) : Option Nat :=
  if '0' ≤ c ∧ c ≤ '9' then some (c.toNat - 48)
  else if 'a' ≤ c ∧ c ≤ 'f' then some (c.toNat - 87)
  else if 'A' ≤ c ∧ c ≤ 'F' then some (c.toNat - 55)
  else none

/-- The code unit that four hexadecimal digits write. -/
def codeUnit? (a b c d : Char) : Option Nat := do
  return 4096 * (← hexValue? a) + 256 * (← hexValue? b) + 16 * (← hexValue? c) + (← hexValue? d)

/-- The first half of a surrogate pair. -/
def isHighHalf (unit : Nat) : Bool := 0xD800 ≤ unit && unit < 0xDC00

/-- The second half of a surrogate pair. -/
def isLowHalf (unit : Nat) : Bool := 0xDC00 ≤ unit && unit < 0xE000

/-- The code points of a string, latest first, with a further code unit: the second half of a pair
joins the first one. -/
def addUnit (unit : Nat) : List Nat → List Nat
  | latest :: points =>
    if isHighHalf latest && isLowHalf unit then
      (0x10000 + 1024 * (latest - 0xD800) + (unit - 0xDC00)) :: points
    else unit :: latest :: points
  | [] => [unit]

/-- The character of a code point; half of a pair is none. -/
def char? (point : Nat) : Option Char :=
  if h : point.isValidChar then some (Char.ofNatAux point h) else none

/-- The text of some code points, latest first; none if half of a pair is among them. -/
def textOf? (points : List Nat) : Option String :=
  (points.reverse.mapM char?).map String.ofList

/-- The character that an escape of one letter stands for. -/
def letterEscape? : Char → Option Char
  | '"' => some '"'
  | '\\' => some '\\'
  | '/' => some '/'
  | 'b' => some '\x08'
  | 'f' => some '\x0c'
  | 'n' => some '\n'
  | 'r' => some '\r'
  | 't' => some '\t'
  | _ => none

/-- The rest of a string up to its closing quote, behind some code points, latest first. -/
def readPoints (points : List Nat) : List Char → Option (List Nat × List Char)
  | [] => none
  | '"' :: rest => some (points, rest)
  | '\\' :: 'u' :: a :: b :: c :: d :: rest =>
    match codeUnit? a b c d with
    | some unit => readPoints (addUnit unit points) rest
    | none => none
  | '\\' :: letter :: rest =>
    match letterEscape? letter with
    | some c => readPoints (c.toNat :: points) rest
    | none => none
  | c :: rest => if c.toNat < 32 then none else readPoints (c.toNat :: points) rest

/-- The rest of a string behind its opening quote: its text, or none if it is unreadable. -/
def readString (cs : List Char) : Option (Option String × List Char) :=
  (readPoints [] cs).map fun (points, rest) => (textOf? points, rest)

/-! ### Values -/

/-- An array or object that is open, its parts latest first. -/
inductive Frame where
  | array (items : List Json)
  /-- The name is the one of the field that is being read; an unreadable name is none. -/
  | object (fields : List (Option String × Json)) (name : Option String)

/-- What comes next in a text. -/
inductive Expected where
  | value
  /-- The name of a field, in an object with some fields, latest first. -/
  | name (fields : List (Option String × Json))
  /-- What follows a value that has been read. -/
  | after (value : Json)

/-- A place in a text. -/
structure Place where
  /-- The open arrays and objects, the innermost first. -/
  frames : List Frame
  expected : Expected
  rest : List Char

/-- An array or object that ends inside others; too far inside it is unreadable. -/
def closed (frames : List Frame) (value : Json) : Json :=
  if (frames.drop (maxDepth - 1)).isEmpty then value else unreadable

/-- The object of some fields, latest first; an unreadable name makes it unreadable. -/
def objectOf (fields : List (Option String × Json)) : Json :=
  match fields.reverse.mapM fun (name, value) => name.map fun name => (name, value) with
  | some fields => object fields
  | none => unreadable

namespace Place

/-- Reads a value that holds no others, or the opening of one that does. -/
def readValue (frames : List Frame) (cs : List Char) : Option Place :=
  match skipBlanks cs with
  | 'n' :: 'u' :: 'l' :: 'l' :: rest => some ⟨frames, .after null, rest⟩
  | 't' :: 'r' :: 'u' :: 'e' :: rest => some ⟨frames, .after (bool true), rest⟩
  | 'f' :: 'a' :: 'l' :: 's' :: 'e' :: rest => some ⟨frames, .after (bool false), rest⟩
  | '"' :: rest => do
    let (text, rest) ← readString rest
    return ⟨frames, .after ((text.map string).getD unreadable), rest⟩
  | '[' :: rest =>
    match skipBlanks rest with
    | ']' :: rest => some ⟨frames, .after (closed frames (array [])), rest⟩
    | rest => some ⟨.array [] :: frames, .value, rest⟩
  | '\x7b' :: rest =>
    match skipBlanks rest with
    | '\x7d' :: rest => some ⟨frames, .after (closed frames (object [])), rest⟩
    | rest => some ⟨frames, .name [], rest⟩
  | rest => do
    let (numeral, rest) ← readNumeral rest
    return ⟨frames, .after numeral.toJson, rest⟩

/-- Reads the name of a field and the colon behind it. -/
def readName (frames : List Frame) (fields : List (Option String × Json)) (cs : List Char) :
    Option Place :=
  match skipBlanks cs with
  | '"' :: rest => do
    let (name, rest) ← readString rest
    match skipBlanks rest with
    | ':' :: rest => return ⟨.object fields name :: frames, .value, rest⟩
    | _ => none
  | _ => none

/-- Reads the comma behind a part of an array or object, or its closing bracket. -/
def readEnd (frame : Frame) (frames : List Frame) (value : Json) (cs : List Char) : Option Place :=
  match frame, skipBlanks cs with
  | .array items, ',' :: rest => some ⟨.array (value :: items) :: frames, .value, rest⟩
  | .array items, ']' :: rest =>
    some ⟨frames, .after (closed frames (array (value :: items).reverse)), rest⟩
  | .object fields name, ',' :: rest => some ⟨frames, .name ((name, value) :: fields), rest⟩
  | .object fields name, '\x7d' :: rest =>
    some ⟨frames, .after (closed frames (objectOf ((name, value) :: fields))), rest⟩
  | _, _ => none

/-- Reads from a place on to the end of the text; `fuel` bounds the number of steps. -/
def finish : (fuel : Nat) → Place → Option Json
  | 0, _ => none
  | _ + 1, ⟨[], .after value, rest⟩ => if (skipBlanks rest).isEmpty then some value else none
  | fuel + 1, ⟨frame :: frames, .after value, rest⟩ =>
    match readEnd frame frames value rest with
    | some place => finish fuel place
    | none => none
  | fuel + 1, ⟨frames, .value, rest⟩ =>
    match readValue frames rest with
    | some place => finish fuel place
    | none => none
  | fuel + 1, ⟨frames, .name fields, rest⟩ =>
    match readName frames fields rest with
    | some place => finish fuel place
    | none => none

end Place

/-- The value that a text holds. -/
def parse? (text : String) : Option Json :=
  let cs := text.toList
  Place.finish (cs.length + 1) ⟨[], .value, cs⟩

end FactGraph.Json
