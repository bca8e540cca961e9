import FactGraph.Specification.Reading

/-! # The grammar over characters

The language is defined by parsing expressions over the characters of a text, one for each rule.
An expression takes characters from the start of what is left of the text, or fails. The first
alternative that fits is taken, and a repetition takes as many elements as it can.

Layout is no part of the rules. It is passed over between the parts of a sequence and between the
elements of a repetition, except in an atomic expression. There are no tokens: the `E` of an
existential condition is a character like any other, and `=` fits the start of `=>`.

A rule leaves a node that tells its place and its characters, and holds the nodes of the rules
inside. The nodes are read as a tree, and the tree as a specification.

* `Peg.expression`: the grammar.
* `Peg.Parses`: what an expression makes of some characters.
* `Peg.Answers`: what the grammar makes of a text. -/

namespace FactGraph

/-- A parsing expression. -/
inductive Peg where
  /-- Some characters as they stand. -/
  | text (chars : List Char)
  /-- A character of a class. -/
  | one (accepts : Char → Bool)
  /-- Nothing, but only at the start of the whole text. -/
  | start
  | rule (name : GrammarRule)
  | seq (first second : Peg)
  | choice (first second : Peg)
  /-- As many elements as there are. -/
  | many (element : Peg)
  /-- As many elements as there are behind another one. -/
  | more (element : Peg)
  /-- Nothing, but only where the expression fails. -/
  | not (excluded : Peg)
  /-- An expression without layout. -/
  | atomic (inside : Peg)

/-- What a rule has matched: its place, counted in characters to the end of the text, its characters
and what the rules inside of it have matched. -/
inductive Node where
  | mk (rule : GrammarRule) (left : Nat) (chars : List Char) (inner : List Node)

namespace Peg

/-! ### The grammar -/

/-- An expression, or nothing where it fails. -/
def optional (e : Peg) : Peg := .choice e (.text [])

/-- Some expressions, one after the other. -/
def inOrder : List Peg → Peg
  | [] => .text []
  | [e] => e
  | e :: rest => .seq e (inOrder rest)

def anyChar : Peg := .one fun _ => true

def newline : Peg := .choice (.text ['\n']) (.choice (.text ['\r', '\n']) (.text ['\r']))

def whitespace : Peg :=
  .choice (.text [' ']) (.choice (.text ['\t']) (.choice (.text ['\r']) (.text ['\n'])))

def comment : Peg := .seq (.text ['/', '/']) (.many (.seq (.not newline) anyChar))

/-- What is passed over between parts and elements. -/
def layout : Peg := .seq (.many whitespace) (.many (.seq comment (.many whitespace)))

/-- A character of a word. -/
def wordChar : Peg := .choice (.one Char.isAlphanum) (.choice (.text ['_']) (.text ['.']))

/-- The sign of an existential condition, which no character of a word follows. -/
def existsSign : Peg := .seq (.text ['E']) (.not wordChar)

def condition : Peg :=
  .choice (.rule .negativeExistential) (.choice (.rule .positiveExistential) (.rule .pathCondition))

def scalarProjection : Peg := .choice (.rule .hashProjection) (.rule .referenceProjection)

/-- The sign `=>` and a projection, or nothing. -/
def yielded : Peg := optional (.seq (.text ['=', '>']) (.rule .projectionBlock))

/-- The expression of a rule. -/
def expression : GrammarRule → Peg
  | .endOfInput => .not anyChar
  | .identifier => .atomic (.seq (.choice (.one Char.isAlpha) (.text ['_'])) (.many wordChar))
  | .specification => inOrder
      [.start, .text ['('], .rule .label, .many (.seq (.text [',']) (.rule .label)), .text [')'],
        .rule .matchBlock, yielded, .rule .endOfInput]
  | .label => inOrder [.rule .identifier, .text [':'], .rule .identifier]
  | .matchBlock => inOrder [.text ['\x7b'], .many (.rule .matchClause), .text ['\x7d']]
  | .matchClause => inOrder [.rule .label, .text ['['], .many condition, .text [']']]
  | .negativeExistential => inOrder [.text ['!'], existsSign, .rule .matchBlock]
  | .positiveExistential => inOrder [existsSign, .rule .matchBlock]
  | .pathCondition => inOrder [.rule .side, .text ['='], .rule .side]
  | .side => inOrder [.rule .identifier, .many (.rule .role)]
  | .role => inOrder [.text ['-', '>'], .rule .identifier, .text [':'], .rule .identifier]
  | .projectionBlock =>
      .choice (inOrder [.text ['\x7b'], .many (.rule .namedProjection), .text ['\x7d']])
        scalarProjection
  | .namedProjection => .choice
      (inOrder [.rule .identifier, optional (.text ['=']), .rule .specificationProjection])
      (inOrder [.rule .identifier, .text ['='], scalarProjection])
  | .specificationProjection => inOrder [.rule .matchBlock, yielded]
  | .hashProjection => inOrder [.text ['#'], .rule .identifier]
  | .referenceProjection => .rule .identifier

/-! ### Parsing -/

/-- What stands between two parts. -/
def gap : (spaced : Bool) → Peg
  | true => layout
  | false => .text []

/-- What an expression makes of the characters that are left of a text: nodes and the characters
behind, or nothing if it fails. Layout is only passed over where it is `spaced`. No rule stands in
an atomic expression or is excluded, so every rule leaves its node. -/
inductive Parses (whole : List Char) :
    (spaced : Bool) → Peg → List Char → Option (List Node × List Char) → Prop
  | text {spaced : Bool} {chars cs rest : List Char} (h : cs = chars ++ rest) :
    Parses whole spaced (.text chars) cs (some ([], rest))
  | textFails {spaced : Bool} {chars cs : List Char} (h : ¬ chars <+: cs) :
    Parses whole spaced (.text chars) cs none
  | one {spaced : Bool} {accepts : Char → Bool} {c : Char} {rest : List Char}
    (h : accepts c = true) : Parses whole spaced (.one accepts) (c :: rest) (some ([], rest))
  | oneFails {spaced : Bool} {accepts : Char → Bool} {cs : List Char}
    (h : ∀ c ∈ cs.head?, accepts c = false) : Parses whole spaced (.one accepts) cs none
  | start {spaced : Bool} {cs : List Char} (h : cs = whole) :
    Parses whole spaced .start cs (some ([], cs))
  | startFails {spaced : Bool} {cs : List Char} (h : cs ≠ whole) :
    Parses whole spaced .start cs none
  | rule {spaced : Bool} {name : GrammarRule} {cs rest : List Char} {inner : List Node}
    (h : Parses whole spaced (expression name) cs (some (inner, rest))) :
    Parses whole spaced (.rule name) cs
      (some ([⟨name, cs.length, cs.take (cs.length - rest.length), inner⟩], rest))
  | ruleFails {spaced : Bool} {name : GrammarRule} {cs : List Char}
    (h : Parses whole spaced (expression name) cs none) : Parses whole spaced (.rule name) cs none
  | seq {spaced : Bool} {e e' : Peg} {cs middle next rest : List Char} {front behind : List Node}
    (h : Parses whole spaced e cs (some (front, middle)))
    (hgap : Parses whole false (gap spaced) middle (some ([], next)))
    (h' : Parses whole spaced e' next (some (behind, rest))) :
    Parses whole spaced (.seq e e') cs (some (front ++ behind, rest))
  | seqFails {spaced : Bool} {e e' : Peg} {cs : List Char}
    (h : Parses whole spaced e cs none) : Parses whole spaced (.seq e e') cs none
  | seqFailsBehind {spaced : Bool} {e e' : Peg} {cs middle next : List Char} {front : List Node}
    (h : Parses whole spaced e cs (some (front, middle)))
    (hgap : Parses whole false (gap spaced) middle (some ([], next)))
    (h' : Parses whole spaced e' next none) : Parses whole spaced (.seq e e') cs none
  | choice {spaced : Bool} {e e' : Peg} {cs rest : List Char} {nodes : List Node}
    (h : Parses whole spaced e cs (some (nodes, rest))) :
    Parses whole spaced (.choice e e') cs (some (nodes, rest))
  | choiceOther {spaced : Bool} {e e' : Peg} {cs : List Char}
    {outcome : Option (List Node × List Char)} (h : Parses whole spaced e cs none)
    (h' : Parses whole spaced e' cs outcome) : Parses whole spaced (.choice e e') cs outcome
  | manyNone {spaced : Bool} {e : Peg} {cs : List Char} (h : Parses whole spaced e cs none) :
    Parses whole spaced (.many e) cs (some ([], cs))
  | many {spaced : Bool} {e : Peg} {cs middle rest : List Char} {front behind : List Node}
    (h : Parses whole spaced e cs (some (front, middle)))
    (h' : Parses whole spaced (.more e) middle (some (behind, rest))) :
    Parses whole spaced (.many e) cs (some (front ++ behind, rest))
  /-- Behind the last element the layout is left. -/
  | moreNone {spaced : Bool} {e : Peg} {cs next : List Char}
    (hgap : Parses whole false (gap spaced) cs (some ([], next)))
    (h : Parses whole spaced e next none) : Parses whole spaced (.more e) cs (some ([], cs))
  | more {spaced : Bool} {e : Peg} {cs next middle rest : List Char} {front behind : List Node}
    (hgap : Parses whole false (gap spaced) cs (some ([], next)))
    (h : Parses whole spaced e next (some (front, middle)))
    (h' : Parses whole spaced (.more e) middle (some (behind, rest))) :
    Parses whole spaced (.more e) cs (some (front ++ behind, rest))
  | not {spaced : Bool} {e : Peg} {cs : List Char} (h : Parses whole spaced e cs none) :
    Parses whole spaced (.not e) cs (some ([], cs))
  | notFails {spaced : Bool} {e : Peg} {cs rest : List Char} {nodes : List Node}
    (h : Parses whole spaced e cs (some (nodes, rest))) : Parses whole spaced (.not e) cs none
  | atomic {spaced : Bool} {e : Peg} {cs : List Char} {outcome : Option (List Node × List Char)}
    (h : Parses whole false e cs outcome) : Parses whole spaced (.atomic e) cs outcome

end Peg

/-! ### Reading nodes -/

namespace Node

def rule : Node → GrammarRule
  | ⟨rule, _, _, _⟩ => rule

def inner : Node → List Node
  | ⟨_, _, _, inner⟩ => inner

/-- The characters of a node. -/
def name : Node → String
  | ⟨_, _, chars, _⟩ => String.ofList chars

/-- The label that a node stands for. -/
def label? : Node → Option Label
  | ⟨_, _, _, name :: type :: _⟩ => some ⟨name.name, type.name⟩
  | _ => none

/-- The role that a node stands for. -/
def role? : Node → Option Role
  | ⟨_, _, _, name :: target :: _⟩ => some ⟨name.name, target.name⟩
  | _ => none

/-- The side of a path condition that a node stands for. -/
def side? : Node → Option Tree.Side
  | ⟨_, _, _, label :: roles⟩ => do return ⟨label.name, ← roles.mapM role?⟩
  | _ => none

mutual

/-- The matches of the block that a node stands for. -/
def block? : Node → Option (List Tree.Clause)
  | ⟨_, _, _, clauses⟩ => clauses? clauses

/-- The matches that nodes stand for. -/
def clauses? : List Node → Option (List Tree.Clause)
  | [] => some []
  | node :: rest => do return (← clause? node) :: (← clauses? rest)

/-- The match that a node stands for. -/
def clause? : Node → Option Tree.Clause
  | ⟨_, _, _, unknown :: conditions⟩ => do return ⟨← unknown.label?, ← conditions? conditions⟩
  | _ => none

/-- The conditions that nodes stand for. -/
def conditions? : List Node → Option (List Tree.Condition)
  | [] => some []
  | node :: rest => do return (← condition? node) :: (← conditions? rest)

/-- The condition that a node stands for. -/
def condition? : Node → Option Tree.Condition
  | ⟨.negativeExistential, _, _, block :: _⟩ => do return .existential false (← block? block)
  | ⟨.positiveExistential, _, _, block :: _⟩ => do return .existential true (← block? block)
  | ⟨.pathCondition, left, _, first :: second :: _⟩ => do
    return .path left (← first.side?) (← second.side?)
  | _ => none

end

/-- The scalar that a node stands for. -/
def scalar? : Node → Option Tree.Scalar
  | ⟨.hashProjection, _, _, label :: _⟩ => some (.hash label.name)
  | ⟨.referenceProjection, _, _, path :: _⟩ => some (.reference path.name)
  | _ => none

mutual

/-- The elements of the projection that a node stands for. -/
def projections? : Node → Option (List Tree.Projection)
  | ⟨_, _, _, elements⟩ => elements? elements

/-- The elements that nodes stand for. -/
def elements? : List Node → Option (List Tree.Projection)
  | [] => some []
  | node :: rest => do return (← element? node) :: (← elements? rest)

/-- The element of a projection that a node stands for. A scalar alone has no name. -/
def element? : Node → Option Tree.Projection
  | ⟨.namedProjection, _, _, name :: body :: _⟩ =>
    if body.rule = .specificationProjection then do
      let (block, projections) ← nested? body
      return .nested name.name block projections
    else do return .scalar name.name (← body.scalar?)
  | node => do return .scalar "" (← node.scalar?)

/-- The matches of a nested projection and the elements of what they yield. -/
def nested? : Node → Option (List Tree.Clause × List Tree.Projection)
  | ⟨_, _, _, block :: yielded⟩ => do return (← block.block?, ← yielded? yielded)
  | _ => none

/-- The elements of the projection that follows a block, if there is one. -/
def yielded? : List Node → Option (List Tree.Projection)
  | [] => some []
  | projection :: _ => projections? projection

end

/-- A tree with what one more node of a specification stands for. -/
def enter? (tree : Tree.Specification) (node : Node) : Option Tree.Specification :=
  match node.rule with
  | .label => do return { tree with given := tree.given ++ [← node.label?] }
  | .matchBlock => do return { tree with body := ← node.block? }
  | .projectionBlock => do return { tree with projections := ← node.projections? }
  | _ => some tree

/-- The tree that the node of a specification stands for. -/
def specification? (node : Node) : Option Tree.Specification :=
  node.inner.foldlM enter? ⟨[], [], []⟩

end Node

/-! ### Texts -/

/-- What the grammar makes of a text: an error of some place and with some rules if it does not fit,
and otherwise the specification that the tree of its node stands for, if that is well-formed. -/
inductive Peg.Answers (text : List Char) : Except SpecificationError Specification → Prop
  | refused {place : Position} {rules : List GrammarRule}
    (h : Peg.Parses text true (.rule .specification) text none) :
    Answers text (.error (.expected place rules))
  | read {node : Node} {rest : List Char} {tree : Tree.Specification}
    (h : Peg.Parses text true (.rule .specification) text (some ([node], rest)))
    (ht : node.specification? = some tree) :
    Answers text (do
      let spec ← tree.read text
      spec.check
      return spec)

end FactGraph
