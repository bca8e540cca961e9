import FactGraph.Proofs.Grammar.Written

/-! # Reading written trees

A reader reads the tree that the tokens write, and leaves what stands behind them: the first
alternative that fits is the right one, and every repetition ends where its elements do. So no text
writes two trees, and the texts for which readers fail are those that write none.

* `Tree.Condition.reads`: a condition.
* `Tree.Clause.readsEach`: the clauses of a block.
* `Tree.Projection.reads`: a projection in a block.
* `Tree.Specification.reads`: **a written tree is read from its tokens.** -/

namespace FactGraph

open FactGraph.Parser (Reads Fails ReadsEach NextNot NextNoWord)

variable {rest : List Lexeme} {bound depth : Nat}

/-! ### First tokens -/

theorem Enclosed.length {opening : List Token} {closing : Char} {content : List Lexeme → Prop}
    {lexemes : List Lexeme} (h : Enclosed opening closing content lexemes) :
    opening.length < lexemes.length := by
  obtain ⟨front, inner, back, rfl, -, hback, rfl⟩ := h
  have hpos := length_pos_of_map_token_eq hback (List.cons_ne_nil _ _)
  simp only [List.length_append, List.length_map]
  omega

namespace Tree

theorem Condition.WrittenBy.exists_cons {condition : Condition} {lexemes : List Lexeme}
    (h : condition.WrittenBy lexemes) :
    ∃ first others, lexemes = first :: others ∧ first.token ≠ .arrow := by
  rcases condition with ⟨left, first, second⟩ | ⟨_ | _, block⟩
  · obtain ⟨_, _, rfl, -⟩ := map_token_eq_cons h.2
    exact ⟨_, _, rfl, by simp⟩
  · obtain ⟨front, inner, hfront, -, rfl⟩ := h
    obtain ⟨_, _, rfl, -⟩ := map_token_eq_cons hfront
    exact ⟨_, _, rfl, by simp⟩
  · obtain ⟨front, inner, hfront, -, rfl⟩ := h
    obtain ⟨_, _, rfl, -⟩ := map_token_eq_cons hfront
    exact ⟨_, _, rfl, by simp⟩

theorem Projection.WrittenBy.exists_cons {projection : Projection} {lexemes : List Lexeme}
    (h : projection.WrittenBy lexemes) :
    ∃ name left others, lexemes = ⟨.word name, left⟩ :: others := by
  cases projection with
  | scalar name value =>
    obtain ⟨_, _, rfl, -⟩ := map_token_eq_cons h
    exact ⟨_, _, _, rfl⟩
  | nested name block projections =>
    obtain ⟨front, sign, inner, tail, hfront, -, -, -, rfl⟩ := h
    obtain ⟨_, rfl⟩ := map_token_eq_singleton hfront
    exact ⟨_, _, _, rfl⟩

theorem Condition.WrittenBy.length_pos {condition : Condition} {lexemes : List Lexeme}
    (h : condition.WrittenBy lexemes) : 0 < lexemes.length := by
  obtain ⟨_, _, rfl, -⟩ := h.exists_cons
  exact Nat.succ_pos _

theorem Projection.WrittenBy.length_pos {projection : Projection} {lexemes : List Lexeme}
    (h : projection.WrittenBy lexemes) : 0 < lexemes.length := by
  obtain ⟨_, _, _, rfl⟩ := h.exists_cons
  exact Nat.succ_pos _

theorem Condition.AllWrittenBy.nextNot {conditions : List Condition} {lexemes : List Lexeme}
    (h : Condition.AllWrittenBy conditions lexemes) (hr : NextNot [.arrow] rest) :
    NextNot [.arrow] (lexemes ++ rest) := by
  rcases conditions with _ | ⟨condition, conditions⟩
  · cases h
    exact hr
  · obtain ⟨_, _, hc, -, rfl⟩ := h
    obtain ⟨first, others, rfl, hne⟩ := hc.exists_cons
    simpa using hne

theorem Projection.AllWrittenBy.nextNot {projections : List Projection} {lexemes : List Lexeme}
    (h : Projection.AllWrittenBy projections lexemes) (hr : NextNot [.yields] rest) :
    NextNot [.yields] (lexemes ++ rest) := by
  rcases projections with _ | ⟨projection, projections⟩
  · cases h
    exact hr
  · obtain ⟨_, _, hp, -, rfl⟩ := h
    obtain ⟨name, left, others, rfl⟩ := hp.exists_cons
    simp

/-! ### Blocks -/

theorem Clause.reads_block_of {block : List Clause} {front : List Lexeme}
    (hclauses : ∀ (left : Nat) (inner : List Lexeme), Clause.AllWrittenBy block inner →
      inner.length ≤ depth → ReadsEach (Parser.clause (Parser.matchBlock depth))
        (inner ++ ⟨.char '\x7d', left⟩ :: rest) block (⟨.char '\x7d', left⟩ :: rest))
    (h : Clause.BlockWrittenBy block front) (hlen : front.length ≤ depth + 1) :
    Reads (Parser.matchBlock (depth + 1)) (front ++ rest) block rest := by
  obtain ⟨opening, inner, closing, ho, hi, hc, rfl⟩ := h
  obtain ⟨l1, rfl⟩ := map_token_eq_singleton ho
  obtain ⟨l2, rfl⟩ := map_token_eq_singleton hc
  simp only [List.length_append, List.length_cons, List.length_nil] at hlen
  have hread := hclauses l2 inner hi (by omega)
  simp only [Parser.matchBlock, Parser.reads_rule, Parser.reads_bind, Parser.reads_sign,
    Parser.reads_pure, List.append_assoc, List.cons_append, List.nil_append]
  exact ⟨(), _, ⟨_, rfl⟩, block, _, hread.reads_many, (), _, ⟨_, rfl⟩, rfl, rfl⟩

theorem Condition.reads_existential {holds : Bool} {block : List Clause}
    {front inner : List Lexeme}
    (hfront : front.map Lexeme.token = (if holds then [] else [.char '!']) ++ [.word "E"])
    (hinner : Clause.BlockWrittenBy block inner)
    (hblock : Reads (Parser.matchBlock depth) (inner ++ rest) block rest) :
    Reads (Parser.condition (Parser.matchBlock depth)) (front ++ inner ++ rest)
      (.existential holds block) rest := by
  obtain ⟨opening, _, _, ho, -, -, rfl⟩ := hinner
  obtain ⟨_, _, rfl, -⟩ := map_token_eq_cons ho
  cases holds with
  | true =>
    obtain ⟨_, rfl⟩ := map_token_eq_singleton hfront
    simp only [Parser.condition, Parser.reads_orElse, Parser.positiveExistential,
      Parser.reads_rule, Parser.reads_bind, Parser.reads_pure]
    exact Or.inr ⟨Parser.fails_negativeExistential (by simp),
      Or.inl ⟨(), _, Parser.reads_existsSign_brace, block, rest, hblock, rfl, rfl⟩⟩
  | false =>
    obtain ⟨_, _, rfl, hE⟩ := map_token_eq_cons hfront
    obtain ⟨_, rfl⟩ := map_token_eq_singleton hE
    simp only [Parser.condition, Parser.reads_orElse, Parser.negativeExistential,
      Parser.reads_rule, Parser.reads_bind, Parser.reads_pure, Parser.reads_sign]
    exact Or.inl ⟨(), _, ⟨_, rfl⟩, (), _, Parser.reads_existsSign_brace, block, rest, hblock, rfl,
      rfl⟩

theorem Condition.reads_path {left : Nat} {first second : Side} {front : List Lexeme}
    (h : (Condition.path left first second).WrittenBy front) (hr : NextNot [.arrow] rest) :
    Reads (Parser.condition (Parser.matchBlock depth)) (front ++ rest) (.path left first second)
      rest := by
  obtain ⟨rfl, htokens⟩ := h
  have hread := @FactGraph.Condition.reads_sides rest depth first second front htokens hr
  obtain ⟨_, _, rfl, -⟩ := map_token_eq_cons htokens
  exact hread

mutual

theorem Condition.reads : ∀ {condition : Condition} {depth : Nat} {front rest : List Lexeme},
    condition.WrittenBy front → front.length ≤ depth → NextNot [.arrow] rest →
    Reads (Parser.condition (Parser.matchBlock depth)) (front ++ rest) condition rest
  | .path _ _ _, _, _, _, h, _, hr => Condition.reads_path h hr
  | .existential holds block, depth, _, rest, h, hlen, _ => by
    obtain ⟨front, inner, hfront, hinner, rfl⟩ := h
    rw [List.length_append] at hlen
    have hpos := hinner.length
    obtain ⟨d, rfl⟩ : ∃ d, depth = d + 1 := Nat.exists_eq_succ_of_ne_zero (by omega)
    exact Condition.reads_existential hfront hinner (Clause.reads_block_of
      (fun left clauses hc hl => Clause.readsEach hc hl) hinner (by omega))

theorem Condition.readsEach : ∀ {conditions : List Condition} {depth left : Nat}
    {front rest : List Lexeme}, Condition.AllWrittenBy conditions front → front.length ≤ depth →
    ReadsEach (Parser.condition (Parser.matchBlock depth)) (front ++ ⟨.char ']', left⟩ :: rest)
      conditions (⟨.char ']', left⟩ :: rest)
  | [], _, _, _, _, h, _ => by
    cases h
    exact .done Parser.fails_condition
  | condition :: conditions, depth, left, _, rest, h, hlen => by
    obtain ⟨first, others, hf, ho, rfl⟩ := h
    rw [List.length_append] at hlen
    have hnext : NextNot [.arrow] (others ++ ⟨.char ']', left⟩ :: rest) := ho.nextNot (by simp)
    have hread := @Condition.reads condition depth first _ hf (by omega) hnext
    have hpos := hf.length_pos
    rw [List.append_assoc]
    exact .more hread (by simpa using hpos) (Condition.readsEach ho (by omega))

/-- **Clauses are read until the brace behind them.** -/
theorem Clause.readsEach : ∀ {block : List Clause} {depth left : Nat} {front rest : List Lexeme},
    Clause.AllWrittenBy block front → front.length ≤ depth →
    ReadsEach (Parser.clause (Parser.matchBlock depth)) (front ++ ⟨.char '\x7d', left⟩ :: rest)
      block (⟨.char '\x7d', left⟩ :: rest)
  | [], _, _, _, _, h, _ => by
    cases h
    exact .done Parser.fails_clause
  | ⟨unknown, conditions⟩ :: block, depth, left, _, rest, h, hlen => by
    obtain ⟨_, others, ⟨opening, inner, closing, ho, hi, hc, rfl⟩, hothers, rfl⟩ := h
    obtain ⟨name, _, rfl, hname, hbracket⟩ := map_token_eq_append ho
    obtain ⟨l1, rfl⟩ := map_token_eq_singleton hbracket
    obtain ⟨l2, rfl⟩ := map_token_eq_singleton hc
    simp only [List.length_append, List.length_cons] at hlen
    have hconditions := @Condition.readsEach conditions depth l2 inner
      (others ++ ⟨.char '\x7d', left⟩ :: rest) hi (by omega)
    have hclause : Reads (Parser.clause (Parser.matchBlock depth))
        (name ++ ⟨.char '[', l1⟩ :: (inner ++ ⟨.char ']', l2⟩ ::
          (others ++ ⟨.char '\x7d', left⟩ :: rest))) ⟨unknown, conditions⟩
        (others ++ ⟨.char '\x7d', left⟩ :: rest) := by
      simp only [Parser.clause, Parser.reads_rule, Parser.reads_bind, Parser.reads_sign,
        Parser.reads_pure]
      exact ⟨unknown, _, Label.reads hname, (), _, ⟨_, rfl⟩, conditions, _, hconditions.reads_many,
        (), _, ⟨_, rfl⟩, rfl, rfl⟩
    simp only [List.append_assoc, List.cons_append, List.nil_append]
    exact .more hclause (by simp only [List.length_append, List.length_cons]; omega)
      (Clause.readsEach hothers (by omega))

end

theorem Clause.reads_block {block : List Clause} {front : List Lexeme}
    (h : Clause.BlockWrittenBy block front) (hlen : front.length ≤ depth) :
    Reads (Parser.matchBlock depth) (front ++ rest) block rest := by
  have hpos := h.length
  obtain ⟨d, rfl⟩ : ∃ d, depth = d + 1 := Nat.exists_eq_succ_of_ne_zero (by omega)
  exact Clause.reads_block_of (fun left clauses hc hl => Clause.readsEach hc hl) h hlen

/-! ### Projections -/

theorem Scalar.reads {value : Scalar} {front : List Lexeme}
    (h : front.map Lexeme.token = value.tokens) :
    Reads Parser.scalar (front ++ rest) value rest ∧ NextNot [.char '\x7b'] (front ++ rest) := by
  cases value with
  | hash label =>
    obtain ⟨_, _, rfl, h1⟩ := map_token_eq_cons h
    obtain ⟨_, _, rfl, h2⟩ := map_token_eq_cons h1
    cases List.map_eq_nil_iff.mp h2
    exact ⟨Parser.reads_scalar_hash, by simp⟩
  | reference path =>
    obtain ⟨_, _, rfl, h1⟩ := map_token_eq_cons h
    cases List.map_eq_nil_iff.mp h1
    exact ⟨Parser.reads_scalar_reference, by simp⟩

theorem Projection.reads_yielded {projections : List Projection} {front : List Lexeme}
    (hlines : ∀ (left : Nat) (inner : List Lexeme),
      Projection.AllWrittenBy projections inner → inner.length ≤ depth →
      ReadsEach (Parser.namedProjection (Parser.matchBlock bound)
          (Parser.projectionBlock (Parser.matchBlock bound) depth))
        (inner ++ ⟨.char '\x7d', left⟩ :: rest) projections (⟨.char '\x7d', left⟩ :: rest))
    (h : Projection.Yielded projections (Projection.AllWrittenBy projections) front)
    (hlen : front.length ≤ depth + 1) (hr : NextNot [.yields] rest) :
    Reads (Parser.yielded (Parser.projectionBlock (Parser.matchBlock bound) (depth + 1)))
      (front ++ rest) projections rest := by
  rcases h with ⟨rfl, rfl⟩ | ⟨value, rfl, h⟩ | ⟨opening, inner, closing, ho, hi, hc, rfl⟩
  · exact Parser.reads_yielded_none hr
  · obtain ⟨_, inner, rfl, hi⟩ := map_token_eq_cons h
    obtain ⟨hvalue, hn⟩ := @Scalar.reads rest _ _ hi
    exact Parser.reads_yielded (Parser.reads_projectionBlock_scalar hvalue hn)
  · obtain ⟨_, _, rfl, hbrace⟩ := map_token_eq_cons ho
    obtain ⟨_, rfl⟩ := map_token_eq_singleton hbrace
    obtain ⟨left, rfl⟩ := map_token_eq_singleton hc
    simp only [List.length_append, List.length_cons, List.length_nil] at hlen
    have hread := hlines left inner hi (by omega)
    simp only [List.append_assoc, List.cons_append, List.nil_append]
    exact Parser.reads_yielded (Parser.reads_projectionBlock hread)

mutual

theorem Projection.reads : ∀ {projection : Projection} {depth : Nat} {front rest : List Lexeme},
    projection.WrittenBy front → front.length ≤ depth → depth ≤ bound → NextNot [.yields] rest →
    Reads (Parser.namedProjection (Parser.matchBlock bound)
      (Parser.projectionBlock (Parser.matchBlock bound) depth)) (front ++ rest) projection rest
  | .scalar name value, _, _, rest, h, _, _, _ => by
    obtain ⟨_, _, rfl, h1⟩ := map_token_eq_cons h
    obtain ⟨_, inner, rfl, hi⟩ := map_token_eq_cons h1
    obtain ⟨hvalue, hn⟩ := @Scalar.reads rest _ _ hi
    exact Parser.reads_namedProjection_scalar hvalue hn
  | .nested name block projections, depth, _, rest, h, hlen, hbound, hr => by
    obtain ⟨front, sign, inner, tail, hfront, hsign, hinner, htail, rfl⟩ := h
    obtain ⟨_, rfl⟩ := map_token_eq_singleton hfront
    simp only [List.length_append, List.length_cons] at hlen
    have hpos := hinner.length
    obtain ⟨d, rfl⟩ : ∃ d, depth = d + 1 := Nat.exists_eq_succ_of_ne_zero (by omega)
    have hblock := @Clause.reads_block (tail ++ rest) bound block inner hinner (by omega)
    have hyield := @Projection.reads_yielded rest bound d projections tail
      (fun left lines hl hd => Projection.readsEach hl hd (by omega)) htail (by omega) hr
    obtain ⟨opening, _, _, ho, -, -, rfl⟩ := hinner
    obtain ⟨_, rfl⟩ := map_token_eq_singleton ho
    simp only [List.append_assoc, List.cons_append, List.nil_append] at hblock ⊢
    exact Parser.reads_namedProjection_nested hsign hblock hyield

/-- **The elements of a block of projections are read until the brace behind them.** -/
theorem Projection.readsEach : ∀ {projections : List Projection} {depth left : Nat}
    {front rest : List Lexeme}, Projection.AllWrittenBy projections front →
    front.length ≤ depth → depth ≤ bound →
    ReadsEach (Parser.namedProjection (Parser.matchBlock bound)
        (Parser.projectionBlock (Parser.matchBlock bound) depth))
      (front ++ ⟨.char '\x7d', left⟩ :: rest) projections (⟨.char '\x7d', left⟩ :: rest)
  | [], _, _, _, _, h, _, _ => by
    cases h
    exact .done Parser.fails_namedProjection
  | projection :: projections, depth, left, _, rest, h, hlen, hbound => by
    obtain ⟨first, others, hf, ho, rfl⟩ := h
    rw [List.length_append] at hlen
    have hnext : NextNot [.yields] (others ++ ⟨.char '\x7d', left⟩ :: rest) := ho.nextNot (by simp)
    have hread := @Projection.reads projection depth first _ hf (by omega) hbound hnext
    have hpos := hf.length_pos
    rw [List.append_assoc]
    exact .more hread (by simpa using hpos) (Projection.readsEach ho (by omega) hbound)

end

/-! ### Whole texts -/

/-- **A written tree is read from its tokens**, at a depth that no block exceeds. -/
theorem Specification.reads {tree : Specification} {front : List Lexeme} {left : Nat}
    (h : tree.WrittenBy front) (hlen : front.length ≤ depth) :
    Reads (Parser.specification (depth + 1) left) front tree [] := by
  obtain ⟨given, body, projections⟩ := tree
  obtain ⟨first, others, _, block, tail, hgiven, hfront, hb, ht, rfl⟩ := h
  obtain rfl : given = first :: others := hgiven
  obtain ⟨_, _, rfl, h1⟩ := map_token_eq_cons hfront
  obtain ⟨label, _, rfl, hl, h2⟩ := map_token_eq_append h1
  obtain ⟨labels, _, rfl, ho, h3⟩ := map_token_eq_append h2
  obtain ⟨close, rfl⟩ := map_token_eq_singleton h3
  simp only [List.length_append, List.length_cons] at hlen
  have hblock := @Clause.reads_block tail (depth + 1) body block hb (by omega)
  have hyield := @Projection.reads_yielded [] (depth + 1) depth projections tail
    (fun left lines hl hd => Projection.readsEach hl hd (by omega)) ht (by omega) (by simp)
  rw [List.append_nil] at hyield
  simp only [Parser.specification, Parser.reads_ruleAt, Parser.reads_bind, Parser.reads_sign,
    Parser.reads_pure, List.append_assoc, List.cons_append, List.nil_append]
  exact ⟨(), _, ⟨_, rfl⟩, first, _, Label.reads hl, others, _,
    (Label.readsEach_more ho).reads_many, (), _, ⟨_, rfl⟩, body, _, hblock, projections, _, hyield,
    (), _, Parser.reads_rule.mpr rfl, rfl, rfl⟩

end Tree

/-- **A text has a tree exactly if its tokens write that tree.** -/
theorem Specification.treeOf_eq_ok_iff {text : List Char} {tree : Tree.Specification} :
    treeOf text = .ok tree ↔ tree.WrittenBy (Token.ofText text) := by
  have hread : treeOf text = .ok tree ↔ ∃ rest, Reads (Parser.specification
      ((Token.ofText text).length + 1) text.length) (Token.ofText text) tree rest := by
    unfold treeOf Tree.ofText Reads
    rcases hp : Parser.specification ((Token.ofText text).length + 1) text.length
      (Token.ofText text) with ⟨attempts, _ | ⟨read, rest⟩⟩ <;> simp [hp]
  rw [hread]
  exact ⟨fun ⟨_, h⟩ => Parser.writtenBy_of_reads h,
    fun h => ⟨[], Tree.Specification.reads h (Nat.le_refl _)⟩⟩

end FactGraph
