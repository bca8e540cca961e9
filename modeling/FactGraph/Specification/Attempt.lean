import FactGraph.Specification.Token

/-! # Attempts

When a text does not follow the grammar, the error names the rules that were tried in vain at the
furthest place of the text. The attempts of a reader are those of its parts: of two parts the one
that came further counts, and both count if they came equally far. A rule that fails stands for the
attempts that were made at its own start, unless there was exactly one; attempts further on count
for themselves. -/

namespace FactGraph

/-- The rules of the grammar that an error can name. -/
inductive GrammarRule where
  | endOfInput
  | identifier
  | specification
  | label
  | matchBlock
  | matchClause
  | negativeExistential
  | positiveExistential
  | pathCondition
  | side
  | role
  | projectionBlock
  | namedProjection
  | specificationProjection
  | hashProjection
  | referenceProjection
  deriving DecidableEq, Repr

namespace GrammarRule

/-- All rules, in the order in which an error lists them. -/
def all : List GrammarRule :=
  [endOfInput, identifier, specification, label, matchBlock, matchClause, negativeExistential,
    positiveExistential, pathCondition, side, role, projectionBlock, namedProjection,
    specificationProjection, hashProjection, referenceProjection]

/-- What an error calls a rule. -/
def describe : GrammarRule → String
  | endOfInput => "end of input"
  | identifier => "identifier"
  | specification => "specification"
  | label => "label"
  | matchBlock => "'\x7b'"
  | matchClause => "match"
  | negativeExistential => "existential condition"
  | positiveExistential => "existential condition"
  | pathCondition => "path condition"
  | side => "side"
  | role => "role"
  | projectionBlock => "projection"
  | namedProjection => "named projection"
  | specificationProjection => "specification_projection"
  | hashProjection => "hash_projection"
  | referenceProjection => "reference_projection"

end GrammarRule

/-- The rules tried in vain at the furthest place, which lies `left` characters before the end of
the text. Without rules there were no attempts, wherever the place is. -/
structure Attempts where
  left : Nat
  rules : List GrammarRule
  deriving DecidableEq, Repr

namespace Attempts

/-- No attempts. -/
def none : Attempts := ⟨0, []⟩

/-- The attempts of two parts, the first of them made earlier. -/
def merge (a b : Attempts) : Attempts :=
  if b.rules.isEmpty then a
  else if a.rules.isEmpty then b
  else if a.left < b.left then a
  else if b.left < a.left then b
  else ⟨a.left, a.rules ++ b.rules⟩

/-- The attempts of a rule that failed, from those that were made inside of it. -/
def failed (name : GrammarRule) (left : Nat) (inside : Attempts) : Attempts :=
  if inside.rules.isEmpty then ⟨left, [name]⟩
  else if inside.left < left then inside
  else if inside.rules.length = 1 then inside
  else ⟨left, [name]⟩

/-- The rules in the order of an error, each of them once. -/
def listed (attempts : Attempts) : List GrammarRule :=
  GrammarRule.all.filter attempts.rules.contains

end Attempts

end FactGraph
