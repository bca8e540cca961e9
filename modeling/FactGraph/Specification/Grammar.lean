import FactGraph.Specification.Attempt
import FactGraph.Specification.Tree

/-! # The grammar

    specification  = "(" label ("," label)* ")" block ("=>" projection)? end
    label          = word ":" word
    block          = "{" clause* "}"
    clause         = label "[" condition* "]"
    condition      = "!" "E" block | "E" block | side "=" side
    side           = word role*
    role           = "->" word ":" word
    projection     = "{" named* "}" | scalar
    named          = word ("="? block ("=>" projection)? | "=" scalar)
    scalar         = "#" word | word

The first alternative that fits is taken, and a repetition takes as many elements as it can. The `E`
of an existential condition is a word of its own, and no character that could continue a word may
follow it, even behind blanks. An equals sign may also be the first half of `=>`.

A reader answers what it read and the tokens behind it, or fails; in both cases it tells its
attempts, which have no influence on what is read. Blocks are read to a given depth. A block needs a
brace, so the number of tokens is depth enough for every text.

The language itself is given over characters, by the parsing expressions of `Peg.expression`, which
know no tokens. `Peg.parses_specification` says that both grammars agree on every text. -/

namespace FactGraph

/-- What a reader answers. -/
structure Outcome (α : Type) where
  attempts : Attempts
  result : Option (α × List Lexeme)

/-- Reads the start of a list of tokens. -/
def Parser (α : Type) : Type := List Lexeme → Outcome α

namespace Parser

variable {α β : Type}

/-! ### Combining readers -/

/-- The number of characters from the next token to the end of the text. -/
def place : List Lexeme → Nat
  | [] => 0
  | lexeme :: _ => lexeme.left

/-- Reads nothing. -/
def succeed (a : α) : Parser α := fun tokens => ⟨.none, some (a, tokens)⟩

/-- Fails without an attempt. -/
def fail : Parser α := fun _ => ⟨.none, none⟩

/-- Reads one thing and then another. -/
def andThen (first : Parser α) (second : α → Parser β) : Parser β := fun tokens =>
  match first tokens with
  | ⟨attempts, none⟩ => ⟨attempts, none⟩
  | ⟨attempts, some (a, rest)⟩ =>
    let outcome := second a rest
    ⟨attempts.merge outcome.attempts, outcome.result⟩

instance : Monad Parser where
  pure := succeed
  bind := andThen

/-- Reads the second thing where the first one fails. -/
def orElse (first second : Parser α) : Parser α := fun tokens =>
  match first tokens with
  | ⟨attempts, some read⟩ => ⟨attempts, some read⟩
  | ⟨attempts, none⟩ =>
    let outcome := second tokens
    ⟨attempts.merge outcome.attempts, outcome.result⟩

/-- Reads something or nothing. -/
def optional (reader : Parser α) : Parser (Option α) :=
  orElse (andThen reader fun a => succeed (some a)) (succeed none)

/-- Reads at most `count` elements. -/
def manyUpTo (reader : Parser α) : Nat → Parser (List α)
  | 0 => succeed []
  | count + 1 =>
    orElse (andThen reader fun a => andThen (manyUpTo reader count) fun as => succeed (a :: as))
      (succeed [])

/-- Reads as many elements as there are. An element takes at least a token. -/
def many (reader : Parser α) : Parser (List α) := fun tokens =>
  manyUpTo reader (tokens.length + 1) tokens

/-- Reads by a rule that is tried `left` characters before the end of the text. -/
def ruleAt (left : Nat) (name : GrammarRule) (reader : Parser α) : Parser α := fun tokens =>
  match reader tokens with
  | ⟨attempts, some read⟩ => ⟨attempts, some read⟩
  | ⟨attempts, none⟩ => ⟨attempts.failed name left, none⟩

/-- Reads by a rule that is tried at the next token. -/
def rule (name : GrammarRule) (reader : Parser α) : Parser α := fun tokens =>
  ruleAt (place tokens) name reader tokens

/-! ### Single tokens -/

/-- Reads a token. -/
def token (expected : Token) : Parser Unit
  | lexeme :: rest => if lexeme.token = expected then succeed () rest else fail rest
  | [] => fail []

/-- Reads a character that stands for itself. -/
def sign (c : Char) : Parser Unit := token (.char c)

/-- Reads an equals sign, which may be the first half of `=>`. -/
def equals : Parser Unit
  | ⟨.char '=', _⟩ :: rest => succeed () rest
  | ⟨.yields, left⟩ :: rest => succeed () (⟨.char '>', left - 1⟩ :: rest)
  | tokens => fail tokens

/-- Whether the next token starts with a character that could continue a word. -/
def continuesWord : List Lexeme → Bool
  | ⟨.word _, _⟩ :: _ => true
  | ⟨.char c, _⟩ :: _ => Token.isWordChar c
  | _ => false

/-- Reads the `E` of an existential condition. -/
def existsSign : Parser Unit
  | ⟨.word "E", _⟩ :: rest => if continuesWord rest then fail rest else succeed () rest
  | tokens => fail tokens

/-- Reads a word. -/
def word : Parser String
  | ⟨.word name, _⟩ :: rest => succeed name rest
  | tokens => fail tokens

/-- Reads the end of the text. -/
def endOfText : Parser Unit
  | [] => succeed () []
  | tokens => fail tokens

/-! ### Labels and paths -/

/-- Reads a word as an identifier. -/
def identifier : Parser String := rule .identifier word

/-- Reads a label. -/
def label : Parser Label := rule .label do
  let name ← identifier
  sign ':'
  let type ← identifier
  return ⟨name, type⟩

/-- Reads a role. -/
def role : Parser Role := rule .role do
  token .arrow
  let name ← identifier
  sign ':'
  let target ← identifier
  return ⟨name, target⟩

/-- Reads one side of a path condition. -/
def side : Parser Tree.Side := rule .side do
  let label ← identifier
  let roles ← many role
  return ⟨label, roles⟩

/-- Reads a path condition, whose place is that of its first token. -/
def pathCondition : Parser Tree.Condition := fun tokens =>
  rule .pathCondition (do
    let first ← side
    equals
    let second ← side
    return Tree.Condition.path (place tokens) first second) tokens

/-! ### Blocks of matches -/

/-- Reads a condition that the block cannot be bound. -/
def negativeExistential (block : Parser (List Tree.Clause)) : Parser Tree.Condition :=
  rule .negativeExistential do
    sign '!'
    existsSign
    return .existential false (← block)

/-- Reads a condition that the block can be bound. -/
def positiveExistential (block : Parser (List Tree.Clause)) : Parser Tree.Condition :=
  rule .positiveExistential do
    existsSign
    return .existential true (← block)

/-- Reads a condition. -/
def condition (block : Parser (List Tree.Clause)) : Parser Tree.Condition :=
  orElse (negativeExistential block) (orElse (positiveExistential block) pathCondition)

/-- Reads a match. -/
def clause (block : Parser (List Tree.Clause)) : Parser Tree.Clause := rule .matchClause do
  let unknown ← label
  sign '['
  let conditions ← many (condition block)
  sign ']'
  return ⟨unknown, conditions⟩

/-- Reads a block of matches with at most `depth` blocks inside each other. -/
def matchBlock : (depth : Nat) → Parser (List Tree.Clause)
  | 0 => fail
  | depth + 1 => rule .matchBlock do
    sign '\x7b'
    let clauses ← many (clause (matchBlock depth))
    sign '\x7d'
    return clauses

/-! ### Projections -/

/-- Reads a scalar projection. -/
def scalar : Parser Tree.Scalar :=
  orElse
    (rule .hashProjection do
      sign '#'
      return .hash (← identifier))
    (rule .referenceProjection do
      return .reference (← identifier))

/-- Reads `=>` and a projection behind it, or nothing. -/
def yielded (projection : Parser (List Tree.Projection)) : Parser (List Tree.Projection) := do
  let projections ← optional do
    token .yields
    projection
  return projections.getD []

/-- Reads the matches of a nested projection and what they yield. -/
def specificationProjection (block : Parser (List Tree.Clause))
    (projection : Parser (List Tree.Projection)) :
    Parser (List Tree.Clause × List Tree.Projection) :=
  rule .specificationProjection do
    let clauses ← block
    let projections ← yielded projection
    return (clauses, projections)

/-- Reads an element of a projection block. -/
def namedProjection (block : Parser (List Tree.Clause))
    (projection : Parser (List Tree.Projection)) : Parser Tree.Projection :=
  rule .namedProjection do
    let name ← identifier
    orElse
      (do
        let _ ← optional equals
        let (clauses, projections) ← specificationProjection block projection
        return .nested name clauses projections)
      (do
        equals
        return .scalar name (← scalar))

/-- Reads a projection with at most `depth` projections inside each other, whose blocks of matches
are read by `block`. -/
def projectionBlock (block : Parser (List Tree.Clause)) :
    (depth : Nat) → Parser (List Tree.Projection)
  | 0 => fail
  | depth + 1 => rule .projectionBlock <|
    orElse
      (do
        sign '\x7b'
        let projections ← many (namedProjection block (projectionBlock block depth))
        sign '\x7d'
        return projections)
      (do
        return [.scalar "" (← scalar)])

/-! ### The whole text -/

/-- Reads a specification that starts `left` characters before the end of the text, with at most
`depth` blocks inside each other. -/
def specification (depth left : Nat) : Parser Tree.Specification :=
  ruleAt left .specification do
    sign '('
    let first ← label
    let others ← many do
      sign ','
      label
    sign ')'
    let body ← matchBlock depth
    let projections ← yielded (projectionBlock (matchBlock depth) depth)
    rule .endOfInput endOfText
    return ⟨first :: others, body, projections⟩

end Parser

/-- The tree of a text, or the attempts that were made in vain. -/
def Tree.ofText (text : List Char) : Except Attempts Tree.Specification :=
  let tokens := Token.ofText text
  match Parser.specification (tokens.length + 1) text.length tokens with
  | ⟨_, some (tree, _)⟩ => .ok tree
  | ⟨attempts, none⟩ => .error attempts

end FactGraph
