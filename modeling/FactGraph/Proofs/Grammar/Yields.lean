import FactGraph.Proofs.Grammar.Recovery

/-! # Reading projections

A scalar projection ends with its word, so that the next word is the name of the next projection; an
element of a block is nested if a brace follows its name and the equals sign there may be, and
scalar otherwise. What stands behind an arrow is a block if it starts with a brace, and otherwise a
scalar projection alone.

* `Parser.reads_namedProjection_scalar`, `Parser.reads_namedProjection_nested`: an element of a
  block.
* `Parser.reads_projectionBlock_scalar`, `Parser.reads_projectionBlock`: behind an arrow.
* `Parser.reads_yielded_none`, `Parser.reads_yielded`: there may be no arrow. -/

namespace FactGraph

open FactGraph.Parser (Reads Fails ReadsEach NextNot NextNoWord)

variable {rest : List Lexeme} {bound depth : Nat}

/-! ### Scalar projections -/

theorem Parser.reads_scalar_reference {label : String} {left : Nat} :
    Reads Parser.scalar (⟨.word label, left⟩ :: rest) (.reference label) rest := by
  simp only [Parser.scalar, Parser.reads_orElse, Parser.reads_rule, Parser.reads_bind,
    Parser.reads_identifier, Parser.reads_pure]
  exact Or.inr ⟨Parser.fails_rule.mpr (Parser.fails_bind (Parser.fails_sign (by simp))),
    label, rest, ⟨left, rfl⟩, rfl, rfl⟩

theorem Parser.reads_scalar_hash {label : String} {left left' : Nat} :
    Reads Parser.scalar (⟨.char '#', left⟩ :: ⟨.word label, left'⟩ :: rest) (.hash label) rest := by
  simp only [Parser.scalar, Parser.reads_orElse, Parser.reads_rule, Parser.reads_bind,
    Parser.reads_sign, Parser.reads_identifier, Parser.reads_pure]
  exact Or.inl ⟨(), _, ⟨left, rfl⟩, label, rest, ⟨left', rfl⟩, rfl, rfl⟩

/-! ### Elements of blocks -/

theorem Parser.fails_specificationProjection {projection : Parser (List Tree.Projection)}
    (h : NextNot [.char '\x7b'] rest) :
    Fails (Parser.specificationProjection (Parser.matchBlock bound) projection) rest :=
  Parser.fails_rule.mpr (Parser.fails_bind (Parser.fails_matchBlock h))

theorem Parser.fails_namedProjection {block : Parser (List Tree.Clause)}
    {projection : Parser (List Tree.Projection)} {left : Nat} :
    Fails (Parser.namedProjection block projection) (⟨.char '\x7d', left⟩ :: rest) :=
  Parser.fails_rule.mpr (Parser.fails_bind (Parser.fails_identifier (by simp [NextNoWord])))

theorem Parser.reads_namedProjection_scalar {projection : Parser (List Tree.Projection)}
    {name : String} {left left' : Nat} {tokens : List Lexeme} {value : Tree.Scalar}
    (hs : Reads Parser.scalar tokens value rest) (hn : NextNot [.char '\x7b'] tokens) :
    Reads (Parser.namedProjection (Parser.matchBlock bound) projection)
      (⟨.word name, left⟩ :: ⟨.char '=', left'⟩ :: tokens) (.scalar name value) rest := by
  simp only [Parser.namedProjection, Parser.reads_rule, Parser.reads_bind, Parser.reads_identifier,
    Parser.reads_orElse, Parser.reads_pure]
  refine ⟨name, _, ⟨left, rfl⟩, Or.inr ⟨?_, (), tokens, Parser.reads_equals, value, rest, hs, rfl,
    rfl⟩⟩
  refine Parser.fails_bind_iff.mpr fun _ middle hm => ?_
  obtain ⟨-, rfl⟩ := Parser.reads_unique hm (Parser.reads_optional_some Parser.reads_equals)
  exact Parser.fails_bind (Parser.fails_specificationProjection hn)

/-- A brace behind a name, or behind an equals sign there, starts the block of a nested
projection. -/
theorem Parser.reads_namedProjection_nested {block : Parser (List Tree.Clause)}
    {projection : Parser (List Tree.Projection)} {name : String} {left left' : Nat}
    {sign tokens middle : List Lexeme} {clauses : List Tree.Clause}
    {trees : List Tree.Projection}
    (hs : sign.map Lexeme.token = [] ∨ sign.map Lexeme.token = [.char '='])
    (hb : Reads block (⟨.char '\x7b', left'⟩ :: tokens) clauses middle)
    (hy : Reads (Parser.yielded projection) middle trees rest) :
    Reads (Parser.namedProjection block projection)
      (⟨.word name, left⟩ :: (sign ++ ⟨.char '\x7b', left'⟩ :: tokens))
      (.nested name clauses trees) rest := by
  have hsign : ∃ read, Reads (Parser.optional Parser.equals)
      (sign ++ ⟨.char '\x7b', left'⟩ :: tokens) read (⟨.char '\x7b', left'⟩ :: tokens) := by
    rcases hs with hs | hs
    · cases List.map_eq_nil_iff.mp hs
      exact ⟨none, Parser.reads_optional_none (Parser.fails_equals (by simp))⟩
    · obtain ⟨_, _, rfl, h⟩ := map_token_eq_cons hs
      cases List.map_eq_nil_iff.mp h
      exact ⟨some (), Parser.reads_optional_some Parser.reads_equals⟩
  obtain ⟨read, hsign⟩ := hsign
  simp only [Parser.namedProjection, Parser.specificationProjection, Parser.reads_rule,
    Parser.reads_bind, Parser.reads_identifier, Parser.reads_orElse, Parser.reads_pure]
  exact ⟨name, _, ⟨left, rfl⟩, Or.inl ⟨read, _, hsign, (clauses, trees), rest,
    ⟨clauses, middle, hb, trees, rest, hy, rfl, rfl⟩, rfl, rfl⟩⟩

/-! ### Blocks of projections -/

theorem Parser.reads_projectionBlock_scalar {block : Parser (List Tree.Clause)}
    {tokens : List Lexeme} {value : Tree.Scalar} (hs : Reads Parser.scalar tokens value rest)
    (hn : NextNot [.char '\x7b'] tokens) :
    Reads (Parser.projectionBlock block (depth + 1)) tokens [.scalar "" value] rest := by
  simp only [Parser.projectionBlock, Parser.reads_rule, Parser.reads_orElse, Parser.reads_bind,
    Parser.reads_pure]
  exact Or.inr ⟨Parser.fails_bind (Parser.fails_sign hn), value, rest, hs, rfl, rfl⟩

theorem Parser.reads_projectionBlock {block : Parser (List Tree.Clause)} {left left' : Nat}
    {tokens : List Lexeme} {trees : List Tree.Projection}
    (hs : ReadsEach (Parser.namedProjection block (Parser.projectionBlock block depth)) tokens trees
      (⟨.char '\x7d', left'⟩ :: rest)) :
    Reads (Parser.projectionBlock block (depth + 1)) (⟨.char '\x7b', left⟩ :: tokens) trees
      rest := by
  simp only [Parser.projectionBlock, Parser.reads_rule, Parser.reads_orElse, Parser.reads_bind,
    Parser.reads_sign, Parser.reads_pure]
  exact Or.inl ⟨(), _, ⟨left, rfl⟩, trees, _, hs.reads_many, (), rest, ⟨left', rfl⟩, rfl, rfl⟩

theorem Parser.reads_yielded_none {projection : Parser (List Tree.Projection)}
    (h : NextNot [.yields] rest) : Reads (Parser.yielded projection) rest [] rest := by
  simp only [Parser.yielded, Parser.reads_bind, Parser.reads_pure]
  exact ⟨none, rest, Parser.reads_optional_none (Parser.fails_bind (Parser.fails_token h)), rfl,
    rfl⟩

theorem Parser.reads_yielded {projection : Parser (List Tree.Projection)} {left : Nat}
    {tokens : List Lexeme} {trees : List Tree.Projection}
    (h : Reads projection tokens trees rest) :
    Reads (Parser.yielded projection) (⟨.yields, left⟩ :: tokens) trees rest := by
  simp only [Parser.yielded, Parser.reads_bind, Parser.reads_pure]
  refine ⟨some trees, rest, Parser.reads_optional_some ?_, rfl, rfl⟩
  simp only [Parser.reads_bind, Parser.reads_token]
  exact ⟨(), tokens, ⟨left, rfl⟩, h⟩

end FactGraph
