import FactGraph.Specification.Attempt

/-! # Errors of specifications

A text that does not follow the grammar, a path condition that leaves out its unknown, and the ways
in which a specification is not well formed. -/

namespace FactGraph

/-- A place in a text, both numbers counted from 1. Lines end with a line feed, columns count
characters. -/
structure Position where
  line : Nat
  column : Nat
  deriving DecidableEq, Repr

namespace Position

/-- The place behind some characters. -/
def after (before : List Char) : Position :=
  ⟨before.count '\n' + 1, (before.reverse.takeWhile (· != '\n')).length + 1⟩

/-- The place in a text that lies `left` characters before its end. -/
def ofLeft (text : List Char) (left : Nat) : Position := after (text.take (text.length - left))

end Position

/-- What is wrong with a specification. -/
inductive SpecificationError where
  /-- The text does not go on with any of some rules. -/
  | expected (position : Position) (rules : List GrammarRule)
  /-- Neither side of a path condition starts from the unknown of its match. -/
  | unrelatedPath (position : Position) (unknown : String)
  /-- A match has no path condition, or several. -/
  | pathConditionCount (unknown : String) (count : Nat)
  | unknownLabel (name : String)
  | duplicateLabel (name : String)
  /-- The two sides of a path condition arrive at different types. -/
  | pathTypeMismatch (unknown left right : String)
  /-- A path condition ties an unknown to itself. -/
  | selfReference (unknown : String)
  deriving DecidableEq, Repr

namespace SpecificationError

/-- Alternatives in words: `A`, `A or B`, `A, B, or C`. -/
def alternatives : List String → String
  | [] => ""
  | [a] => a
  | [a, b] => a ++ " or " ++ b
  | names => ", ".intercalate names.dropLast ++ ", or " ++ names.getLastD ""

/-- The wording of an error at a place of the text. -/
def parseMessage (position : Position) (reason : String) : String :=
  "Parse error at " ++ toString position.line ++ ":" ++ toString position.column ++ ": " ++ reason

def message : SpecificationError → String
  | expected position rules =>
    parseMessage position ("expected " ++ alternatives (rules.map GrammarRule.describe))
  | unrelatedPath position unknown =>
    parseMessage position ("path condition must refer to " ++ unknown)
  | pathConditionCount unknown count =>
    "Match " ++ unknown ++ " must have exactly one path condition, found " ++ toString count
  | unknownLabel name => "Label " ++ name ++ " is not defined"
  | duplicateLabel name => "Label " ++ name ++ " is already defined"
  | pathTypeMismatch unknown left right =>
    "Path condition on " ++ unknown ++ " joins " ++ left ++ " to " ++ right
  | selfReference unknown =>
    "Path condition in match " ++ unknown ++ " does not refer to " ++ unknown

end SpecificationError

end FactGraph
