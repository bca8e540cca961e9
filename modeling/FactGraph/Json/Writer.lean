import FactGraph.Json.Basic

/-! # Writing JSON

A value is written in one line, or indented by two blanks a level. Both forms escape the quote, the
backslash and the control characters only; all other characters stand for themselves. Nothing can
be said of an unreadable value, so `null` is written for it. -/

namespace FactGraph.Json

/-! ### Strings -/

/-- A hexadecimal digit in lower case. -/
def hexDigit (n : Nat) : Char := Char.ofNat (if n < 10 then 48 + n else 87 + n)

/-- A character as it stands in a quoted string. -/
def escape (c : Char) : List Char :=
  if c = '"' then ['\\', '"']
  else if c = '\\' then ['\\', '\\']
  else if c = '\n' then ['\\', 'n']
  else if c = '\r' then ['\\', 'r']
  else if c = '\t' then ['\\', 't']
  else if c = '\x08' then ['\\', 'b']
  else if c = '\x0c' then ['\\', 'f']
  else if c.toNat < 32 then ['\\', 'u', '0', '0', hexDigit (c.toNat / 16), hexDigit (c.toNat % 16)]
  else [c]

/-- A text between quotes. -/
def quote (text : String) : String := "\"" ++ String.ofList (text.toList.flatMap escape) ++ "\""

/-! ### One line -/

mutual

/-- A value in one line, without blanks. -/
def compact : Json → String
  | null | unreadable => "null"
  | bool true => "true"
  | bool false => "false"
  | integer n => toString n
  | fraction digits => digits
  | string text => quote text
  | array items => "[" ++ ",".intercalate (compactItems items) ++ "]"
  | object fields => "\x7b" ++ ",".intercalate (compactFields fields) ++ "\x7d"

/-- The elements of an array, each in one line. -/
def compactItems : List Json → List String
  | [] => []
  | item :: rest => compact item :: compactItems rest

/-- The fields of an object, each in one line. -/
def compactFields : List (String × Json) → List String
  | [] => []
  | (name, value) :: rest => (quote name ++ ":" ++ compact value) :: compactFields rest

end

/-! ### Indented -/

/-- The line break before something that stands `level` levels deep. -/
def lineBreak (level : Nat) : String := "\n" ++ "".pushn ' ' (2 * level)

/-- Parts between two brackets: each on a line of its own, one level below `level`; without parts
the brackets stand together. -/
def bracketed (left right : String) (level : Nat) (parts : List String) : String :=
  if parts.isEmpty then left ++ right
  else
    left ++ lineBreak (level + 1) ++ ("," ++ lineBreak (level + 1)).intercalate parts ++
      lineBreak level ++ right

mutual

/-- A value whose first line starts `level` levels deep. -/
def indented (level : Nat) : Json → String
  | array items => bracketed "[" "]" level (indentedItems (level + 1) items)
  | object fields => bracketed "\x7b" "\x7d" level (indentedFields (level + 1) fields)
  | null | unreadable => "null"
  | bool true => "true"
  | bool false => "false"
  | integer n => toString n
  | fraction digits => digits
  | string text => quote text

/-- The elements of an array, `level` levels deep. -/
def indentedItems (level : Nat) : List Json → List String
  | [] => []
  | item :: rest => indented level item :: indentedItems level rest

/-- The fields of an object, `level` levels deep. -/
def indentedFields (level : Nat) : List (String × Json) → List String
  | [] => []
  | (name, value) :: rest =>
    (quote name ++ ": " ++ indented level value) :: indentedFields level rest

end

/-- A value on several lines, indented by two blanks a level. -/
def pretty (value : Json) : String := indented 0 value

end FactGraph.Json
