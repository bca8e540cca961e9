import FactGraph.Proofs.Grammar.Repetition
import FactGraph.Proofs.Grammar.Spelled
import FactGraph.Specification.Reading

/-! # Reading conditions

From the tokens of a label, a role or a side its reader reads just that, and it leaves what stands
behind them. The first alternative for a condition that fits is the right one, even where a label
has the name of the sign of an existential condition: the sign stands in front of a brace.

* `Label.reads`, `Label.readsEach_more`: the given labels.
* `reads_side`, `Parser.reads_pathCondition`: sides, and the two of a path condition.
* `Condition.reads_sides`: a path condition among the conditions of a match. -/

namespace FactGraph

open FactGraph.Parser (Reads Fails ReadsEach NextNot NextNoWord)

variable {rest : List Lexeme} {depth : Nat}

/-! ### Lexemes of tokens -/

theorem map_token_eq_cons {front : List Lexeme} {t : Token} {ts : List Token}
    (h : front.map Lexeme.token = t :: ts) :
    ∃ left others, front = ⟨t, left⟩ :: others ∧ others.map Lexeme.token = ts := by
  obtain ⟨⟨t', left⟩, others, rfl, rfl, ho⟩ := List.map_eq_cons_iff.mp h
  exact ⟨left, others, rfl, ho⟩

theorem map_token_eq_singleton {front : List Lexeme} {t : Token}
    (h : front.map Lexeme.token = [t]) : ∃ left, front = [⟨t, left⟩] := by
  obtain ⟨left, others, rfl, ho⟩ := map_token_eq_cons h
  cases List.map_eq_nil_iff.mp ho
  exact ⟨left, rfl⟩

theorem map_token_eq_append {front : List Lexeme} {ts us : List Token}
    (h : front.map Lexeme.token = ts ++ us) : ∃ first second, front = first ++ second ∧
      first.map Lexeme.token = ts ∧ second.map Lexeme.token = us :=
  List.map_eq_append_iff.mp h

theorem length_pos_of_map_token_eq {front : List Lexeme} {ts : List Token}
    (h : front.map Lexeme.token = ts) (hne : ts ≠ []) : 0 < front.length := by
  rw [← List.length_map Lexeme.token, h]
  exact List.length_pos_iff.mpr hne

/-! ### Labels and paths -/

theorem Label.reads {label : Label} {front : List Lexeme}
    (h : front.map Lexeme.token = label.tokens) :
    Reads Parser.label (front ++ rest) label rest := by
  obtain ⟨_, _, rfl, h1⟩ := map_token_eq_cons h
  obtain ⟨_, _, rfl, h2⟩ := map_token_eq_cons h1
  obtain ⟨_, _, rfl, h3⟩ := map_token_eq_cons h2
  cases List.map_eq_nil_iff.mp h3
  simp only [Parser.label, Parser.reads_rule, Parser.reads_bind, Parser.reads_identifier,
    Parser.reads_sign, Parser.reads_pure]
  exact ⟨_, _, ⟨_, rfl⟩, (), _, ⟨_, rfl⟩, _, _, ⟨_, rfl⟩, rfl, rfl⟩

theorem Parser.fails_moreLabel {left : Nat} :
    Fails (do Parser.sign ','; Parser.label) (⟨.char ')', left⟩ :: rest) :=
  Parser.fails_bind (Parser.fails_sign (by simp))

theorem Label.readsEach_more {left : Nat} : ∀ {others : List Label} {front : List Lexeme},
    front.map Lexeme.token = Label.moreTokens others →
    ReadsEach (do Parser.sign ','; Parser.label) (front ++ ⟨.char ')', left⟩ :: rest) others
      (⟨.char ')', left⟩ :: rest)
  | [], front, h => by
    cases List.map_eq_nil_iff.mp h
    exact .done Parser.fails_moreLabel
  | label :: others, front, h => by
    obtain ⟨first, second, rfl, hf, hs⟩ := map_token_eq_append (h.trans List.flatMap_cons)
    obtain ⟨comma, name, rfl, hn⟩ := map_token_eq_cons hf
    have hlabel : Reads (do Parser.sign ','; Parser.label)
        (⟨.char ',', comma⟩ :: (name ++ (second ++ ⟨.char ')', left⟩ :: rest))) label
        (second ++ ⟨.char ')', left⟩ :: rest) :=
      Parser.reads_bind.mpr ⟨(), _, Parser.reads_sign.mpr ⟨_, rfl⟩, Label.reads hn⟩
    simp only [List.cons_append, List.append_assoc]
    exact .more hlabel (by simp only [List.length_append, List.length_cons]; omega)
      (Label.readsEach_more hs)

theorem Role.reads {role : Role} {front : List Lexeme} (h : front.map Lexeme.token = role.tokens) :
    Reads Parser.role (front ++ rest) role rest := by
  obtain ⟨_, _, rfl, h1⟩ := map_token_eq_cons h
  obtain ⟨_, _, rfl, h2⟩ := map_token_eq_cons h1
  obtain ⟨_, _, rfl, h3⟩ := map_token_eq_cons h2
  obtain ⟨_, _, rfl, h4⟩ := map_token_eq_cons h3
  cases List.map_eq_nil_iff.mp h4
  simp only [Parser.role, Parser.reads_rule, Parser.reads_bind, Parser.reads_token,
    Parser.reads_identifier, Parser.reads_sign, Parser.reads_pure]
  exact ⟨(), _, ⟨_, rfl⟩, _, _, ⟨_, rfl⟩, (), _, ⟨_, rfl⟩, _, _, ⟨_, rfl⟩, rfl, rfl⟩

theorem readsEach_roles : ∀ {roles : List Role} {front : List Lexeme},
    front.map Lexeme.token = roles.flatMap Role.tokens → NextNot [.arrow] rest →
    ReadsEach Parser.role (front ++ rest) roles rest
  | [], front, h, hr => by
    cases List.map_eq_nil_iff.mp h
    exact .done (Parser.fails_rule.mpr (Parser.fails_bind (Parser.fails_token hr)))
  | role :: roles, front, h, hr => by
    obtain ⟨first, others, rfl, hf, ho⟩ := map_token_eq_append (List.flatMap_cons.symm ▸ h)
    have hlen : first.length = 4 := by simpa [Role.tokens] using congrArg List.length hf
    rw [List.append_assoc]
    exact .more (Role.reads hf) (by simp only [List.length_append]; omega)
      (readsEach_roles ho hr)

theorem reads_side {label : String} {roles : List Role} {front : List Lexeme}
    (h : front.map Lexeme.token = sideTokens label roles)
    (hr : NextNot [.arrow] rest) : Reads Parser.side (front ++ rest) ⟨label, roles⟩ rest := by
  obtain ⟨l, others, rfl, ho⟩ := map_token_eq_cons h
  simp only [Parser.side, Parser.reads_rule, Parser.reads_bind, Parser.reads_identifier,
    Parser.reads_pure]
  exact ⟨label, _, ⟨_, rfl⟩, roles, _, (readsEach_roles ho hr).reads_many, rfl, rfl⟩

theorem Parser.reads_pathCondition {tokens : List Lexeme} {condition : Tree.Condition} :
    Reads Parser.pathCondition tokens condition rest ↔ ∃ first middle second others,
      Reads Parser.side tokens first middle ∧ Reads Parser.equals middle () others ∧
      Reads Parser.side others second rest ∧
      condition = .path (Parser.place tokens) first second := by
  have h : Reads Parser.pathCondition tokens condition rest ↔ Reads (do
      let first ← Parser.side
      Parser.equals
      let second ← Parser.side
      return Tree.Condition.path (Parser.place tokens) first second) tokens condition rest :=
    Parser.reads_rule
  rw [h]
  simp only [Parser.reads_bind, Parser.reads_pure]
  constructor
  · rintro ⟨first, middle, h1, _, others, h2, second, _, h3, rfl, rfl⟩
    exact ⟨first, middle, second, others, h1, h2, h3, rfl⟩
  · rintro ⟨first, middle, second, others, h1, h2, h3, rfl⟩
    exact ⟨first, middle, h1, (), others, h2, second, _, h3, rfl, rfl⟩

/-- Two sides with an equals sign between them are read as the sides of a path condition. -/
theorem reads_sides {first second : Tree.Side} {front : List Lexeme}
    (h : front.map Lexeme.token = sideTokens first.label first.roles ++
      .char '=' :: sideTokens second.label second.roles) (hr : NextNot [.arrow] rest) :
    Reads Parser.pathCondition (front ++ rest) (.path (Parser.place (front ++ rest)) first second)
      rest := by
  obtain ⟨before, behind, rfl, hf, hs⟩ := map_token_eq_append h
  obtain ⟨l, others, rfl, ho⟩ := map_token_eq_cons hs
  have hfirst := @reads_side (⟨.char '=', l⟩ :: (others ++ rest)) _ _ _ hf (by simp)
  have hsecond := reads_side ho hr
  simp only [List.append_assoc, List.cons_append]
  exact Parser.reads_pathCondition.mpr
    ⟨_, _, _, _, hfirst, Parser.reads_equals, hsecond, rfl⟩

/-! ### Matches -/

theorem Parser.fails_matchBlock (h : NextNot [.char '\x7b'] rest) :
    Fails (Parser.matchBlock depth) rest := by
  cases depth with
  | zero => rfl
  | succ depth => exact Parser.fails_rule.mpr (Parser.fails_bind (Parser.fails_sign h))

/-- A path condition is not read as an existential condition, whatever the name of its unknown. -/
theorem Parser.fails_positiveExistential {name : String} {left : Nat} {tokens : List Lexeme}
    (h : NextNot [.char '\x7b'] tokens) :
    Fails (Parser.positiveExistential (Parser.matchBlock depth))
      (⟨.word name, left⟩ :: tokens) := by
  refine Parser.fails_rule.mpr (Parser.fails_bind_iff.mpr fun _ middle hr => ?_)
  obtain ⟨_, he⟩ := Parser.eq_of_reads_existsSign hr
  cases he
  exact Parser.fails_bind (Parser.fails_matchBlock h)

theorem Parser.fails_negativeExistential {block : Parser (List Tree.Clause)} {tokens : List Lexeme}
    (h : NextNot [.char '!'] tokens) : Fails (Parser.negativeExistential block) tokens :=
  Parser.fails_rule.mpr (Parser.fails_bind (Parser.fails_sign h))

theorem Parser.fails_condition {left : Nat} :
    Fails (Parser.condition (Parser.matchBlock depth)) (⟨.char ']', left⟩ :: rest) := by
  refine Parser.fails_orElse_iff.mpr ⟨Parser.fails_negativeExistential (by simp),
    Parser.fails_orElse_iff.mpr ⟨?_, ?_⟩⟩
  · refine Parser.fails_rule.mpr (Parser.fails_bind_iff.mpr fun _ middle hr => ?_)
    obtain ⟨_, he⟩ := Parser.eq_of_reads_existsSign hr
    cases he
  · refine Parser.fails_rule.mpr (Parser.fails_bind (Parser.fails_rule.mpr (Parser.fails_bind ?_)))
    exact Parser.fails_identifier (by simp [NextNoWord])

theorem Parser.fails_clause {block : Parser (List Tree.Clause)} {left : Nat} :
    Fails (Parser.clause block) (⟨.char '\x7d', left⟩ :: rest) := by
  refine Parser.fails_rule.mpr (Parser.fails_bind (Parser.fails_rule.mpr (Parser.fails_bind ?_)))
  exact Parser.fails_identifier (by simp [NextNoWord])

theorem Parser.reads_existsSign_brace {left left' : Nat} :
    Reads Parser.existsSign (⟨.word "E", left⟩ :: ⟨.char '\x7b', left'⟩ :: rest) ()
      (⟨.char '\x7b', left'⟩ :: rest) :=
  Parser.reads_existsSign (by simp [Parser.continuesWord]; decide)

/-- A path condition is read as one, even if a side starts with the name of the sign of an
existential condition. -/
theorem Condition.reads_sides {first second : Tree.Side} {front : List Lexeme}
    (h : front.map Lexeme.token = sideTokens first.label first.roles ++
      .char '=' :: sideTokens second.label second.roles) (hr : NextNot [.arrow] rest) :
    Reads (Parser.condition (Parser.matchBlock depth)) (front ++ rest)
      (.path (Parser.place (front ++ rest)) first second) rest := by
  have hpath := FactGraph.reads_sides h hr
  obtain ⟨l, others, rfl, ho⟩ := map_token_eq_cons h
  have hnext : NextNot [.char '\x7b'] (others ++ rest) := by
    rcases hroles : first.roles with _ | ⟨role, roles⟩ <;> rw [hroles] at ho <;>
      obtain ⟨_, _, rfl, -⟩ := map_token_eq_cons ho <;> simp
  simp only [Parser.condition, Parser.reads_orElse]
  exact Or.inr ⟨Parser.fails_negativeExistential (by simp),
    Or.inr ⟨Parser.fails_positiveExistential hnext, hpath⟩⟩

end FactGraph
