import FactGraph.Proofs.Grammar.Printed

/-! # The spellings of a specification

The tokens of a specification are not determined by it. Either side of a path condition may stand
first, an equals sign may stand in front of the block of a nested projection, and where nothing is
projected there may be an arrow with an empty block. `Specification.SpelledBy` says which tokens
spell a specification, part by part; the tokens of its text are one choice among them.

* `Condition.SpelledBy`, `Match.AllSpelledBy`: conditions and matches.
* `Projection.SpelledBy`, `YieldedBy`: projections, and what stands behind the arrow.
* `Specification.spelledBy_tokens`: a printable specification is spelled by the tokens of its
  text. -/

namespace FactGraph

/-! ### Matches -/

/-- The tokens of one side of a path condition. -/
def sideTokens (label : String) (roles : List Role) : List Token :=
  .word label :: roles.flatMap Role.tokens

/-- Tokens spell a path condition on an unknown: they are its two sides with an equals sign between
them, of which either one may be the first. A path from the unknown to itself has no second
spelling, since its first side is taken for that of the unknown; such a path is not well formed. -/
def PathCondition.SpelledBy (unknown : String) (path : PathCondition) (tokens : List Token) :
    Prop :=
  tokens = sideTokens unknown path.rolesLeft ++
    .char '=' :: sideTokens path.labelRight path.rolesRight ∨
  path.labelRight ≠ unknown ∧ tokens = sideTokens path.labelRight path.rolesRight ++
    .char '=' :: sideTokens unknown path.rolesLeft

mutual

/-- Tokens spell a condition on an unknown. -/
def Condition.SpelledBy (unknown : String) : Condition → List Token → Prop
  | .path path, tokens => path.SpelledBy unknown tokens
  | .existential holds block, tokens => ∃ inner, Match.AllSpelledBy block inner ∧
    tokens = (if holds then [] else [.char '!']) ++
      .word "E" :: .char '\x7b' :: (inner ++ [.char '\x7d'])

/-- Tokens spell matches, one after the other. -/
def Match.AllSpelledBy : List Match → List Token → Prop
  | [], tokens => tokens = []
  | ⟨unknown, conditions⟩ :: rest, tokens => ∃ inner others,
    Condition.AllSpelledBy unknown.name conditions inner ∧ Match.AllSpelledBy rest others ∧
      tokens = unknown.tokens ++ .char '[' :: (inner ++ .char ']' :: others)

/-- Tokens spell conditions on an unknown, one after the other. -/
def Condition.AllSpelledBy (unknown : String) : List Condition → List Token → Prop
  | [], tokens => tokens = []
  | condition :: rest, tokens => ∃ first others, condition.SpelledBy unknown first ∧
    Condition.AllSpelledBy unknown rest others ∧ tokens = first ++ others

end

/-- Tokens spell a block of matches. -/
def Match.BlockSpelledBy (block : List Match) (tokens : List Token) : Prop :=
  ∃ inner, Match.AllSpelledBy block inner ∧ tokens = .char '\x7b' :: (inner ++ [.char '\x7d'])

/-! ### Projections -/

/-- Whether a projection is a scalar that is told by its tokens: a label has no dot in it, unless
its hash is reported. -/
def Projection.isPlain : Projection → Bool
  | .field _ label _ => label.toList.all (· != '.')
  | .hash _ _ => true
  | .fact _ label => label.toList.all (· != '.')
  | .nested _ _ _ => false

/-- Tokens spell a scalar projection and its name. -/
def Projection.ScalarSpelledBy (projection : Projection) (tokens : List Token) : Prop :=
  projection.isPlain = true ∧
    tokens = .word projection.name :: .char '=' :: projection.scalarTokens

/-- Tokens spell what projections yield, if `lines` spell the projections: a single one without a
name behind an arrow, or an arrow and a block. Where there are no projections, there may be nothing
at all. -/
def YieldedBy (projections : List Projection) (lines : List Token → Prop) (tokens : List Token) :
    Prop :=
  (projections = [] ∧ tokens = []) ∨
  (∃ single, projections = [single] ∧ single.isBare = true ∧ single.isPlain = true ∧
    tokens = .yields :: single.scalarTokens) ∨
  ∃ inner, lines inner ∧ tokens = .yields :: .char '\x7b' :: (inner ++ [.char '\x7d'])

mutual

/-- Tokens spell a projection in a block. An equals sign may stand in front of the brace of a nested
one. -/
def Projection.SpelledBy : Projection → List Token → Prop
  | .nested name block projections, tokens => ∃ sign inner tail,
    (sign = [] ∨ sign = [.char '=']) ∧ Match.BlockSpelledBy block inner ∧
      YieldedBy projections (Projection.AllSpelledBy projections) tail ∧
      tokens = .word name :: (sign ++ (inner ++ tail))
  | .field name label path, tokens => Projection.ScalarSpelledBy (.field name label path) tokens
  | .hash name label, tokens => Projection.ScalarSpelledBy (.hash name label) tokens
  | .fact name label, tokens => Projection.ScalarSpelledBy (.fact name label) tokens

/-- Tokens spell projections, one after the other. -/
def Projection.AllSpelledBy : List Projection → List Token → Prop
  | [], tokens => tokens = []
  | projection :: rest, tokens => ∃ first others, projection.SpelledBy first ∧
    Projection.AllSpelledBy rest others ∧ tokens = first ++ others

end

/-- **Tokens spell a specification.** -/
def Specification.SpelledBy (spec : Specification) (tokens : List Token) : Prop :=
  ∃ first others block tail, spec.given = first :: others ∧ Match.BlockSpelledBy spec.body block ∧
    YieldedBy spec.projections (Projection.AllSpelledBy spec.projections) tail ∧
    tokens = .char '(' :: (first.tokens ++ (Label.moreTokens others ++
      .char ')' :: (block ++ tail)))

/-! ### Printed tokens -/

mutual

theorem Condition.spelledBy_tokens : ∀ (condition : Condition) (unknown : String),
    condition.SpelledBy unknown (condition.tokens unknown)
  | .path _, _ => Or.inl rfl
  | .existential _ block, _ => ⟨_, Match.allSpelledBy_tokensAll block, rfl⟩

theorem Match.allSpelledBy_tokensAll : ∀ block : List Match,
    Match.AllSpelledBy block (Match.tokensAll block)
  | [] => rfl
  | ⟨_, conditions⟩ :: rest => ⟨_, _, Condition.allSpelledBy_tokensAll conditions _,
      Match.allSpelledBy_tokensAll rest, rfl⟩

theorem Condition.allSpelledBy_tokensAll : ∀ (conditions : List Condition) (unknown : String),
    Condition.AllSpelledBy unknown conditions (Condition.tokensAll unknown conditions)
  | [], _ => rfl
  | condition :: rest, unknown => ⟨_, _, condition.spelledBy_tokens unknown,
      Condition.allSpelledBy_tokensAll rest unknown, rfl⟩

end

theorem Match.blockSpelledBy_blockTokens (block : List Match) :
    Match.BlockSpelledBy block (Match.blockTokens block) :=
  ⟨_, Match.allSpelledBy_tokensAll block, rfl⟩

theorem Projection.isPlain_of_isPrintable {projection : Projection} {alone : Bool}
    (h : projection.isPrintable alone = true) (hne : projection.scalarTokens ≠ []) :
    projection.isPlain = true := by
  cases projection with
  | field name label path =>
    simp only [isPrintable, isPlainWord, Bool.and_eq_true] at h
    exact h.1.2.2
  | hash name label => rfl
  | fact name label =>
    simp only [isPrintable, isPlainWord, Bool.and_eq_true] at h
    exact h.2.2
  | nested name block projections => exact absurd rfl hne

/-- The tokens of the arrow and what stands behind it spell what projections yield, if those of the
lines spell the projections. -/
theorem yieldedBy_yieldTokens {projections : List Projection} {inner : List Token}
    {lines : List Token → Prop}
    (h : Projection.allPrintable (projections.length == 1) projections = true)
    (hl : Projection.allPrintable false projections = true → lines inner) :
    YieldedBy projections lines (yieldTokens projections inner) := by
  rcases projections with _ | ⟨single, _ | ⟨second, others⟩⟩
  · exact Or.inl ⟨rfl, rfl⟩
  · rw [yieldTokens]
    have hsingle : single.isPrintable true = true := by simpa [Projection.allPrintable] using h
    by_cases hb : single.isBare = true
    · rw [if_pos hb]
      have hne : single.scalarTokens ≠ [] := by
        cases single <;> simp [Projection.scalarTokens, Projection.isBare] at hb ⊢
      exact Or.inr (Or.inl ⟨single, rfl, hb, Projection.isPlain_of_isPrintable hsingle hne, rfl⟩)
    · rw [if_neg hb]
      have hnamed := Projection.isPrintable_of_not_isBare hsingle (by simpa using hb)
      exact Or.inr (Or.inr ⟨inner, hl (by simpa [Projection.allPrintable] using hnamed), rfl⟩)
  · exact Or.inr (Or.inr ⟨inner, hl h, rfl⟩)

mutual

theorem Projection.spelledBy_tokens : ∀ {projection : Projection},
    projection.isPrintable false = true → projection.SpelledBy projection.tokens
  | .nested name block projections, h => by
    simp only [Projection.isPrintable, Bool.and_eq_true] at h
    exact ⟨[], _, _, Or.inl rfl, Match.blockSpelledBy_blockTokens block,
      yieldedBy_yieldTokens h.2 fun hp => Projection.allSpelledBy_tokensAll hp, rfl⟩
  | .field _ _ _, h =>
    ⟨Projection.isPlain_of_isPrintable h (by simp [Projection.scalarTokens]), rfl⟩
  | .hash _ _, h =>
    ⟨Projection.isPlain_of_isPrintable h (by simp [Projection.scalarTokens]), rfl⟩
  | .fact _ _, h =>
    ⟨Projection.isPlain_of_isPrintable h (by simp [Projection.scalarTokens]), rfl⟩

theorem Projection.allSpelledBy_tokensAll : ∀ {projections : List Projection},
    Projection.allPrintable false projections = true →
      Projection.AllSpelledBy projections (Projection.tokensAll projections)
  | [], _ => rfl
  | projection :: rest, h => by
    simp only [Projection.allPrintable, Bool.and_eq_true] at h
    exact ⟨_, _, projection.spelledBy_tokens h.1, Projection.allSpelledBy_tokensAll h.2, rfl⟩

end

/-- **A printable specification is spelled by the tokens of its text.** -/
theorem Specification.spelledBy_tokens {spec : Specification} (h : spec.isPrintable = true) :
    spec.SpelledBy spec.tokens := by
  obtain ⟨given, body, projections⟩ := spec
  simp only [isPrintable, Bool.and_eq_true] at h
  rcases given with _ | ⟨first, others⟩
  · cases h.1.1.1
  exact ⟨first, others, _, _, rfl, Match.blockSpelledBy_blockTokens body,
    yieldedBy_yieldTokens h.2 fun hp => Projection.allSpelledBy_tokensAll hp, rfl⟩

end FactGraph
