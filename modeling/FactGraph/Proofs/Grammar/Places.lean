import FactGraph.Proofs.Grammar.Reads

/-! # Readers and places

A token knows its place in the text, but readers look at the tokens only: from tokens without their
places a reader reads the same, up to the places that a tree keeps for its path conditions. Readers
are compared in pairs, one for the tokens as they are and one for the tokens without places, since a
reader may go on with what another one has read.

* `Parser.Alike.bind`, `Parser.Alike.many`: the combinators.
* `Parser.alike_matchBlock`, `Parser.alike_projectionBlock`: blocks and projections.
* `Parser.alike_specification`: whole texts. -/

namespace FactGraph

/-! ### Trees without places -/

/-- A token at no place. -/
def Lexeme.bare (l : Lexeme) : Lexeme := ⟨l.token, 0⟩

namespace Tree

mutual

/-- A condition without the places in it. -/
def Condition.bare : Condition → Condition
  | .path _ first second => .path 0 first second
  | .existential holds block => .existential holds (Clause.bareAll block)

/-- Clauses without the places in them. -/
def Clause.bareAll : List Clause → List Clause
  | [] => []
  | ⟨unknown, conditions⟩ :: rest => ⟨unknown, Condition.bareAll conditions⟩ :: Clause.bareAll rest

def Condition.bareAll : List Condition → List Condition
  | [] => []
  | condition :: rest => condition.bare :: Condition.bareAll rest

end

/-- A clause without the places in it. -/
def Clause.bare (clause : Clause) : Clause := ⟨clause.unknown, Condition.bareAll clause.conditions⟩

theorem Condition.bareAll_eq : ∀ conditions : List Condition,
    Condition.bareAll conditions = conditions.map Condition.bare
  | [] => rfl
  | condition :: rest => by rw [Condition.bareAll, Condition.bareAll_eq rest, List.map_cons]

theorem Clause.bareAll_eq : ∀ clauses : List Clause,
    Clause.bareAll clauses = clauses.map Clause.bare
  | [] => rfl
  | ⟨unknown, conditions⟩ :: rest => by
    rw [Clause.bareAll, Clause.bareAll_eq rest, List.map_cons, Clause.bare]

mutual

/-- A projection without the places in it. -/
def Projection.bare : Projection → Projection
  | .scalar name value => .scalar name value
  | .nested name block projections =>
    .nested name (Clause.bareAll block) (Projection.bareAll projections)

/-- Projections without the places in them. -/
def Projection.bareAll : List Projection → List Projection
  | [] => []
  | projection :: rest => projection.bare :: Projection.bareAll rest

end

theorem Projection.bareAll_eq : ∀ projections : List Projection,
    Projection.bareAll projections = projections.map Projection.bare
  | [] => rfl
  | projection :: rest => by rw [Projection.bareAll, Projection.bareAll_eq rest, List.map_cons]

/-- A tree without the places in it. -/
def Specification.bare (tree : Specification) : Specification :=
  ⟨tree.given, Clause.bareAll tree.body, Projection.bareAll tree.projections⟩

end Tree

namespace Parser

/-! ### Combinators -/

variable {α β γ δ : Type} {f : α → β} {g : γ → δ}

/-- From tokens without places the second reader reads what the first one reads from the tokens as
they are, up to `f`. -/
def Alike (f : α → β) (reader : Parser α) (reader' : Parser β) : Prop :=
  ∀ tokens, (reader' (tokens.map Lexeme.bare)).result =
    (reader tokens).result.map (Prod.map f (List.map Lexeme.bare))

theorem alike_pure {a : α} : Alike f (pure a) (pure (f a)) := fun _ => rfl

theorem alike_fail : Alike f fail fail := fun _ => rfl

theorem Alike.bind {first : Parser α} {first' : Parser β} {second : α → Parser γ}
    {second' : β → Parser δ} (h : Alike f first first')
    (hs : ∀ a, Alike g (second a) (second' (f a))) :
    Alike g (first >>= second) (first' >>= second') := by
  intro tokens
  have hfirst := h tokens
  show (andThen first' second' _).result = (andThen first second tokens).result.map _
  unfold andThen
  rcases hr : first tokens with ⟨attempts, _ | ⟨a, rest⟩⟩ <;>
    rcases hr' : first' (tokens.map Lexeme.bare) with ⟨attempts', _ | ⟨a', rest'⟩⟩ <;>
      simp only [hr, hr', Option.map_none, Option.map_some, reduceCtorEq] at hfirst ⊢
  -- both have read the same up to `f`, and go on with the same tokens up to places
  cases hfirst
  exact hs a rest

theorem Alike.orElse {first second : Parser α} {first' second' : Parser β}
    (h : Alike f first first') (hs : Alike f second second') :
    Alike f (orElse first second) (orElse first' second') := by
  intro tokens
  have hfirst := h tokens
  unfold Parser.orElse
  rcases hr : first tokens with ⟨attempts, _ | read⟩ <;>
    rcases hr' : first' (tokens.map Lexeme.bare) with ⟨attempts', _ | read'⟩ <;>
      simp only [hr, hr', Option.map_none, Option.map_some, reduceCtorEq] at hfirst ⊢
  · exact hs tokens
  · exact hfirst

theorem Alike.ruleAt {reader : Parser α} {reader' : Parser β} {left left' : Nat}
    {name : GrammarRule} (h : Alike f reader reader') :
    Alike f (ruleAt left name reader) (ruleAt left' name reader') := by
  intro tokens
  have hreader := h tokens
  unfold Parser.ruleAt
  rcases hr : reader tokens with ⟨attempts, _ | read⟩ <;>
    rcases hr' : reader' (tokens.map Lexeme.bare) with ⟨attempts', _ | read'⟩ <;>
      simp only [hr, hr', Option.map_none, Option.map_some, reduceCtorEq] at hreader ⊢
  exact hreader

theorem Alike.rule {reader : Parser α} {reader' : Parser β} {name : GrammarRule}
    (h : Alike f reader reader') : Alike f (rule name reader) (rule name reader') :=
  fun tokens => h.ruleAt tokens

theorem Alike.optional {reader : Parser α} {reader' : Parser β} (h : Alike f reader reader') :
    Alike (Option.map f) (optional reader) (optional reader') :=
  Alike.orElse (h.bind fun _ => alike_pure) alike_pure

theorem Alike.manyUpTo {reader : Parser α} {reader' : Parser β} (h : Alike f reader reader') :
    ∀ count, Alike (List.map f) (manyUpTo reader count) (manyUpTo reader' count)
  | 0 => alike_pure
  | count + 1 => Alike.orElse
      (h.bind fun _ => (Alike.manyUpTo h count).bind fun _ => alike_pure) alike_pure

theorem Alike.many {reader : Parser α} {reader' : Parser β} (h : Alike f reader reader') :
    Alike (List.map f) (many reader) (many reader') := by
  intro tokens
  unfold Parser.many
  rw [List.length_map]
  exact h.manyUpTo _ tokens

/-! ### Tokens, labels and paths -/

theorem alike_token {expected : Token} : Alike id (token expected) (token expected) := by
  rintro (_ | ⟨l, tokens⟩)
  · rfl
  · by_cases h : l.token = expected <;> simp [token, Lexeme.bare, h, succeed, fail]

theorem alike_sign {c : Char} : Alike id (sign c) (sign c) := alike_token

theorem alike_equals : Alike id equals equals := by
  rintro (_ | ⟨⟨token, left⟩, tokens⟩)
  · rfl
  · cases token with
    | yields => rfl
    | char c => by_cases h : c = '=' <;> simp [equals, Lexeme.bare, h, succeed, fail]
    | _ => rfl

theorem continuesWord_bare (tokens : List Lexeme) :
    continuesWord (tokens.map Lexeme.bare) = continuesWord tokens := by
  rcases tokens with _ | ⟨⟨token, left⟩, tokens⟩
  · rfl
  · cases token <;> rfl

theorem alike_existsSign : Alike id existsSign existsSign := by
  rintro (_ | ⟨⟨token, left⟩, tokens⟩)
  · rfl
  · cases token with
    | word name =>
      by_cases h : name = "E"
      · subst h
        simp only [existsSign, List.map_cons, Lexeme.bare]
        rw [continuesWord_bare]
        split_ifs <;> rfl
      · simp [existsSign, Lexeme.bare, h, fail]
    | _ => rfl

theorem alike_identifier : Alike id identifier identifier := by
  refine Alike.rule ?_
  rintro (_ | ⟨⟨token, left⟩, tokens⟩)
  · rfl
  · cases token <;> rfl

theorem alike_endOfText : Alike id endOfText endOfText := by
  rintro (_ | ⟨l, tokens⟩) <;> rfl

theorem alike_label : Alike id label label :=
  Alike.rule (alike_identifier.bind fun _ => alike_sign.bind fun _ =>
    alike_identifier.bind fun _ => alike_pure)

theorem alike_role : Alike id role role :=
  Alike.rule (alike_token.bind fun _ => alike_identifier.bind fun _ => alike_sign.bind fun _ =>
    alike_identifier.bind fun _ => alike_pure)

theorem alike_side : Alike id side side := by
  have hroles : Alike id (many role) (many role) := by simpa using alike_role.many
  exact Alike.rule (alike_identifier.bind fun _ => hroles.bind fun _ => alike_pure)

theorem alike_pathCondition : Alike Tree.Condition.bare pathCondition pathCondition := by
  intro tokens
  have hplace : place (tokens.map Lexeme.bare) = 0 := by cases tokens <;> rfl
  have hread : Alike Tree.Condition.bare
      (rule .pathCondition (do
        let first ← side
        equals
        let second ← side
        return Tree.Condition.path (place tokens) first second))
      (rule .pathCondition (do
        let first ← side
        equals
        let second ← side
        return Tree.Condition.path (place (tokens.map Lexeme.bare)) first second)) := by
    rw [hplace]
    exact Alike.rule (alike_side.bind fun _ => alike_equals.bind fun _ =>
      alike_side.bind fun _ => alike_pure)
  exact hread tokens

/-! ### Blocks -/

theorem alike_condition {block : Parser (List Tree.Clause)}
    (h : Alike Tree.Clause.bareAll block block) :
    Alike Tree.Condition.bare (condition block) (condition block) := by
  refine Alike.orElse (Alike.rule ?_) (Alike.orElse (Alike.rule ?_) alike_pathCondition)
  · exact alike_sign.bind fun _ => alike_existsSign.bind fun _ => h.bind fun _ => alike_pure
  · exact alike_existsSign.bind fun _ => h.bind fun _ => alike_pure

/-- **Blocks are read alike.** -/
theorem alike_matchBlock : ∀ depth,
    Alike Tree.Clause.bareAll (matchBlock depth) (matchBlock depth)
  | 0 => alike_fail
  | depth + 1 => by
    have hconditions : Alike Tree.Condition.bareAll (many (condition (matchBlock depth)))
        (many (condition (matchBlock depth))) := by
      rw [show Tree.Condition.bareAll = List.map Tree.Condition.bare from
        funext Tree.Condition.bareAll_eq]
      exact (alike_condition (alike_matchBlock depth)).many
    have hclause : Alike Tree.Clause.bare (clause (matchBlock depth))
        (clause (matchBlock depth)) :=
      Alike.rule (alike_label.bind fun _ => alike_sign.bind fun _ => hconditions.bind fun _ =>
        alike_sign.bind fun _ => alike_pure)
    have hclauses : Alike Tree.Clause.bareAll (many (clause (matchBlock depth)))
        (many (clause (matchBlock depth))) := by
      rw [show Tree.Clause.bareAll = List.map Tree.Clause.bare from funext Tree.Clause.bareAll_eq]
      exact hclause.many
    exact Alike.rule (alike_sign.bind fun _ => hclauses.bind fun _ =>
      alike_sign.bind fun _ => alike_pure)

/-! ### Projections -/

theorem alike_scalar : Alike id scalar scalar :=
  Alike.orElse
    (Alike.rule (alike_sign.bind fun _ => alike_identifier.bind fun _ => alike_pure))
    (Alike.rule (alike_identifier.bind fun _ => alike_pure))

theorem alike_yielded {projection : Parser (List Tree.Projection)}
    (h : Alike Tree.Projection.bareAll projection projection) :
    Alike Tree.Projection.bareAll (yielded projection) (yielded projection) := by
  have harrow : Alike Tree.Projection.bareAll (token .yields >>= fun _ => projection)
      (token .yields >>= fun _ => projection) := alike_token.bind fun _ => h
  refine harrow.optional.bind fun read => ?_
  cases read <;> exact alike_pure

/-- **Projections are read alike.** -/
theorem alike_projectionBlock {block : Parser (List Tree.Clause)}
    (h : Alike Tree.Clause.bareAll block block) : ∀ depth,
    Alike Tree.Projection.bareAll (projectionBlock block depth) (projectionBlock block depth)
  | 0 => alike_fail
  | depth + 1 => by
    have hnested : Alike (Prod.map Tree.Clause.bareAll Tree.Projection.bareAll)
        (specificationProjection block (projectionBlock block depth))
        (specificationProjection block (projectionBlock block depth)) :=
      Alike.rule (h.bind fun _ => (alike_yielded (alike_projectionBlock h depth)).bind fun _ =>
        alike_pure)
    have hnamed : Alike Tree.Projection.bare
        (namedProjection block (projectionBlock block depth))
        (namedProjection block (projectionBlock block depth)) := by
      refine Alike.rule (alike_identifier.bind fun _ => Alike.orElse ?_ ?_)
      · exact alike_equals.optional.bind fun _ => hnested.bind fun _ => alike_pure
      · exact alike_equals.bind fun _ => alike_scalar.bind fun _ => alike_pure
    have hblock : Alike Tree.Projection.bareAll
        (many (namedProjection block (projectionBlock block depth)))
        (many (namedProjection block (projectionBlock block depth))) := by
      rw [show Tree.Projection.bareAll = List.map Tree.Projection.bare from
        funext Tree.Projection.bareAll_eq]
      exact hnamed.many
    exact Alike.rule (Alike.orElse
      (alike_sign.bind fun _ => hblock.bind fun _ => alike_sign.bind fun _ => alike_pure)
      (alike_scalar.bind fun _ => alike_pure))

/-- **Whole texts are read alike**, wherever they start. -/
theorem alike_specification (depth left left' : Nat) :
    Alike Tree.Specification.bare (specification depth left) (specification depth left') := by
  have hmore : Alike id (many (sign ',' >>= fun _ => label)) (many (sign ',' >>= fun _ => label)) := by
    have hlabel : Alike id (sign ',' >>= fun _ => label) (sign ',' >>= fun _ => label) :=
      alike_sign.bind fun _ => alike_label
    simpa using hlabel.many
  exact Alike.ruleAt (alike_sign.bind fun _ => alike_label.bind fun _ => hmore.bind fun _ =>
    alike_sign.bind fun _ => (alike_matchBlock depth).bind fun _ =>
      (alike_yielded (alike_projectionBlock (alike_matchBlock depth) depth)).bind fun _ =>
        alike_endOfText.rule.bind fun _ => alike_pure)

end Parser

end FactGraph
