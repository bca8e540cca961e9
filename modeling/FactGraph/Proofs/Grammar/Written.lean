import FactGraph.Proofs.Grammar.Taken

/-! # Written trees

A tree is written by the tokens of a text at their places. `Tree.Specification.WrittenBy` says so
part by part, as the grammar does, without regard to how a text is read: it neither tries
alternatives nor bounds how deep blocks may lie inside each other. A path condition is at the place
of its first token.

* `Parser.consumes_matchBlock`, `Parser.consumes_projectionBlock`: blocks and projections.
* `Parser.writtenBy_of_reads`: **what is read from a text is written by its tokens.** -/

namespace FactGraph

/-! ### The grammar -/

/-- Something is written between opening tokens and a closing sign. -/
def Enclosed (opening : List Token) (closing : Char) (content : List Lexeme → Prop)
    (lexemes : List Lexeme) : Prop :=
  ∃ front inner back, front.map Lexeme.token = opening ∧ content inner ∧
    back.map Lexeme.token = [.char closing] ∧ lexemes = front ++ (inner ++ back)

namespace Tree

mutual

/-- A condition is written by tokens at their places. -/
def Condition.WrittenBy : Condition → List Lexeme → Prop
  | .path left first second, lexemes => Parser.place lexemes = left ∧
    lexemes.map Lexeme.token = sideTokens first.label first.roles ++
      .char '=' :: sideTokens second.label second.roles
  | .existential holds block, lexemes => ∃ front inner,
    front.map Lexeme.token = (if holds then [] else [.char '!']) ++ [.word "E"] ∧
      Enclosed [.char '\x7b'] '\x7d' (Clause.AllWrittenBy block) inner ∧ lexemes = front ++ inner

/-- Clauses are written one after the other. -/
def Clause.AllWrittenBy : List Clause → List Lexeme → Prop
  | [], lexemes => lexemes = []
  | ⟨unknown, conditions⟩ :: rest, lexemes => ∃ first others,
    Enclosed (unknown.tokens ++ [.char '[']) ']' (Condition.AllWrittenBy conditions) first ∧
      Clause.AllWrittenBy rest others ∧ lexemes = first ++ others

/-- Conditions are written one after the other. -/
def Condition.AllWrittenBy : List Condition → List Lexeme → Prop
  | [], lexemes => lexemes = []
  | condition :: rest, lexemes => ∃ first others, condition.WrittenBy first ∧
    Condition.AllWrittenBy rest others ∧ lexemes = first ++ others

end

/-- A block of clauses is written with its braces. -/
def Clause.BlockWrittenBy (block : List Clause) : List Lexeme → Prop :=
  Enclosed [.char '\x7b'] '\x7d' (Clause.AllWrittenBy block)

/-- What projections yield is written, if `lines` write the projections: a scalar behind an arrow,
or an arrow and a block. Where there are no projections, there may be nothing at all. -/
def Projection.Yielded (projections : List Projection) (lines : List Lexeme → Prop)
    (lexemes : List Lexeme) : Prop :=
  (projections = [] ∧ lexemes = []) ∨
  (∃ value, projections = [.scalar "" value] ∧
    lexemes.map Lexeme.token = .yields :: value.tokens) ∨
  Enclosed [.yields, .char '\x7b'] '\x7d' lines lexemes

mutual

/-- A projection in a block is written with its name. An equals sign may stand in front of the brace
of a nested one. -/
def Projection.WrittenBy : Projection → List Lexeme → Prop
  | .scalar name value, lexemes =>
    lexemes.map Lexeme.token = .word name :: .char '=' :: value.tokens
  | .nested name block projections, lexemes => ∃ front sign inner tail,
    front.map Lexeme.token = [.word name] ∧
      (sign.map Lexeme.token = [] ∨ sign.map Lexeme.token = [.char '=']) ∧
      Clause.BlockWrittenBy block inner ∧
      Projection.Yielded projections (Projection.AllWrittenBy projections) tail ∧
      lexemes = front ++ (sign ++ (inner ++ tail))

/-- Projections are written one after the other. -/
def Projection.AllWrittenBy : List Projection → List Lexeme → Prop
  | [], lexemes => lexemes = []
  | projection :: rest, lexemes => ∃ first others, projection.WrittenBy first ∧
    Projection.AllWrittenBy rest others ∧ lexemes = first ++ others

end

/-- **A tree is written by tokens at their places.** -/
def Specification.WrittenBy (tree : Specification) (lexemes : List Lexeme) : Prop :=
  ∃ first others front block tail, tree.given = first :: others ∧
    front.map Lexeme.token =
      .char '(' :: (first.tokens ++ (Label.moreTokens others ++ [.char ')'])) ∧
    Clause.BlockWrittenBy tree.body block ∧
    Projection.Yielded tree.projections (Projection.AllWrittenBy tree.projections) tail ∧
    lexemes = front ++ (block ++ tail)

end Tree

/-! ### Equals signs -/

namespace Parser

variable {α β : Type} {W : α → List Lexeme → Prop} {V : β → List Lexeme → Prop}

/-- **Half an arrow is no equals sign** in front of what cannot start with the other half. -/
theorem consumes_equals_bind {second : Parser β}
    (hf : ∀ left others, Fails second (⟨.char '>', left⟩ :: others))
    (h : ∀ front : List Lexeme, front.map Lexeme.token = [.char '='] →
      Consumes (fun b behind => V b (front ++ behind)) second) :
    Consumes V (equals >>= fun _ => second) := by
  intro tokens b rest hr
  obtain ⟨u, middle, he, hb⟩ := reads_bind.mp hr
  rcases of_reads_equals he with ⟨left, rfl⟩ | ⟨left, others, rfl⟩
  · obtain ⟨behind, rfl, hbehind⟩ := h [⟨.char '=', left⟩] rfl _ _ _ hb
    exact ⟨⟨.char '=', left⟩ :: behind, rfl, hbehind⟩
  · have hnone := hf left others
    unfold Fails at hnone
    unfold Reads at hb
    rw [hnone] at hb
    cases hb

theorem consumes_optional_equals_bind {second : Parser β}
    (hf : ∀ left others, Fails second (⟨.char '>', left⟩ :: others))
    (h : ∀ front : List Lexeme,
      front.map Lexeme.token = [] ∨ front.map Lexeme.token = [.char '='] →
      Consumes (fun b behind => V b (front ++ behind)) second) :
    Consumes V (optional equals >>= fun _ => second) := by
  intro tokens b rest hr
  obtain ⟨read, middle, he, hb⟩ := reads_bind.mp hr
  simp only [optional, reads_orElse, reads_andThen, reads_succeed] at he
  rcases he with ⟨u, _, he, -, rfl⟩ | ⟨-, -, rfl⟩
  · exact consumes_equals_bind hf (fun front hfront => h front (Or.inr hfront)) _ _ _
      (reads_bind.mpr ⟨u, _, he, hb⟩)
  · exact h [] (Or.inl rfl) _ _ _ hb

/-! ### Blocks -/

theorem consumes_pathCondition : Consumes Tree.Condition.WrittenBy pathCondition := by
  intro tokens condition rest hr
  obtain ⟨first, middle, second, others, h1, h2, h3, rfl⟩ := reads_pathCondition.mp hr
  obtain ⟨front, rfl, hfront⟩ := takes_side _ _ _ h1
  obtain ⟨behind, rfl, hbehind⟩ := takes_side _ _ _ h3
  rcases of_reads_equals h2 with ⟨left, rfl⟩ | ⟨left, others, he⟩
  · refine ⟨front ++ ⟨.char '=', left⟩ :: behind, by simp, ?_, by simp [hfront, hbehind]⟩
    obtain ⟨_, _, rfl, -⟩ := map_token_eq_cons hfront
    rfl
  · obtain ⟨_, _, rfl, -⟩ := map_token_eq_cons hbehind
    cases he

theorem Consumes.enclosed {opening : List Token} {closing : Char} {front : List Lexeme}
    {reader : Parser α} {f : α → β} (h : Consumes W reader)
    (hfront : front.map Lexeme.token = opening)
    (hv : ∀ a lexemes, Enclosed opening closing (W a) lexemes → V (f a) lexemes) :
    Consumes (fun b behind => V b (front ++ behind))
      (reader >>= fun a => sign closing >>= fun _ => pure (f a)) := by
  refine h.bind fun a inner ha => (takes_sign closing).consumes.bind fun _ back hback => ?_
  refine consumes_pure (hv a _ ⟨front, inner, back, hfront, ha, hback, ?_⟩)
  rw [List.append_nil]

theorem consumes_condition {block : Parser (List Tree.Clause)}
    (h : Consumes Tree.Clause.BlockWrittenBy block) :
    Consumes Tree.Condition.WrittenBy (condition block) := by
  have hexistential : ∀ (holds : Bool) (front : List Lexeme), front.map Lexeme.token =
      (if holds then [] else [.char '!']) ++ [.word "E"] →
      Consumes (fun condition behind => condition.WrittenBy (front ++ behind))
        (block >>= fun clauses => pure (Tree.Condition.existential holds clauses)) := by
    refine fun holds front hfront => h.bind fun clauses inner hinner => consumes_pure ?_
    exact ⟨front, inner, hfront, hinner, by rw [List.append_nil]⟩
  refine Consumes.orElse (Consumes.rule ?_) (Consumes.orElse (Consumes.rule ?_)
    consumes_pathCondition)
  · refine (takes_sign _).consumes.bind fun _ mark hmark => takes_existsSign.consumes.bind
      fun _ front hfront => ?_
    have hboth : (mark ++ front).map Lexeme.token = [.char '!'] ++ [.word "E"] := by
      rw [List.map_append, hmark, hfront]
    simpa only [List.append_assoc] using hexistential false _ hboth
  · exact takes_existsSign.consumes.bind fun _ front hfront => hexistential true front hfront

theorem consumes_clause {block : Parser (List Tree.Clause)}
    (h : Consumes Tree.Clause.BlockWrittenBy block) :
    Consumes (fun clause : Tree.Clause => Enclosed (clause.unknown.tokens ++ [.char '[']) ']'
      (Tree.Condition.AllWrittenBy clause.conditions)) (clause block) := by
  have hconditions : Consumes Tree.Condition.AllWrittenBy (many (condition block)) :=
    (consumes_condition h).many rfl fun _ _ first others hc hcs => ⟨first, others, hc, hcs, rfl⟩
  refine Consumes.rule (takes_label.consumes.bind fun unknown name hname =>
    (takes_sign _).consumes.bind fun _ bracket hbracket => ?_)
  have hfront : (name ++ bracket).map Lexeme.token = unknown.tokens ++ [.char '['] := by
    rw [List.map_append, hname, hbracket]
  simpa only [List.append_assoc] using
    hconditions.enclosed (f := Tree.Clause.mk unknown) hfront fun _ _ he => he

/-- **Blocks are written by the tokens that are consumed for them.** -/
theorem consumes_matchBlock : ∀ depth, Consumes Tree.Clause.BlockWrittenBy (matchBlock depth)
  | 0 => fun _ _ _ hr => by cases hr
  | depth + 1 => by
    have hclauses : Consumes Tree.Clause.AllWrittenBy (many (clause (matchBlock depth))) :=
      (consumes_clause (consumes_matchBlock depth)).many rfl
        fun ⟨_, _⟩ _ first others hc hcs => ⟨first, others, hc, hcs, rfl⟩
    exact Consumes.rule ((takes_sign _).consumes.bind fun _ front hfront =>
      hclauses.enclosed (f := id) hfront fun _ _ he => he)

/-! ### Projections -/

theorem consumes_yielded {L : List Tree.Projection → List Lexeme → Prop}
    {projection : Parser (List Tree.Projection)}
    (h : ∀ front : List Lexeme, front.map Lexeme.token = [.yields] →
      Consumes (fun trees behind =>
        Tree.Projection.Yielded trees (L trees) (front ++ behind)) projection) :
    Consumes (fun trees => Tree.Projection.Yielded trees (L trees)) (yielded projection) := by
  have harrow : Consumes (fun trees => Tree.Projection.Yielded trees (L trees))
      (token .yields >>= fun _ => projection) :=
    (takes_token _).consumes.bind fun _ front hfront => h front hfront
  have hread : Consumes (fun (read : Option (List Tree.Projection)) =>
      Tree.Projection.Yielded (read.getD []) (L (read.getD [])))
      (optional (token .yields >>= fun _ => projection)) := by
    refine Consumes.orElse ?_ (consumes_pure (Or.inl ⟨rfl, rfl⟩))
    exact harrow.bind fun trees front ht => consumes_pure (by rwa [List.append_nil])
  exact hread.bind fun read front hr => consumes_pure (by rwa [List.append_nil])

theorem consumes_namedProjection {block : Parser (List Tree.Clause)}
    {projection : Parser (List Tree.Projection)} (hb : Consumes Tree.Clause.BlockWrittenBy block)
    (hfails : ∀ left others, Fails block (⟨.char '>', left⟩ :: others))
    (hp : Consumes (fun trees => Tree.Projection.Yielded trees
      (Tree.Projection.AllWrittenBy trees)) (yielded projection)) :
    Consumes Tree.Projection.WrittenBy (namedProjection block projection) := by
  have hnested : Consumes (fun read : List Tree.Clause × List Tree.Projection => fun lexemes =>
      ∃ inner tail, Tree.Clause.BlockWrittenBy read.1 inner ∧
        Tree.Projection.Yielded read.2 (Tree.Projection.AllWrittenBy read.2) tail ∧
          lexemes = inner ++ tail) (specificationProjection block projection) := by
    refine Consumes.rule (hb.bind fun clauses inner hc => hp.bind fun trees tail ht => ?_)
    exact consumes_pure ⟨inner, tail, hc, ht, by rw [List.append_nil]⟩
  refine Consumes.rule (takes_identifier.consumes.bind fun name word hword => ?_)
  refine Consumes.orElse (consumes_optional_equals_bind (fun _ _ => ?_) fun equals he => ?_)
    (consumes_equals_bind (fun _ _ => fails_bind fails_scalar_half) fun equals he => ?_)
  · exact fails_bind (fails_rule.mpr (fails_bind (hfails _ _)))
  · refine hnested.bind fun read _ ⟨inner, tail, hi, ht, hl⟩ => consumes_pure ?_
    exact ⟨word, equals, inner, tail, hword, he, hi, ht, by rw [List.append_nil, hl]⟩
  · refine takes_scalar.consumes.bind fun value behind hv => consumes_pure ?_
    show List.map Lexeme.token _ = _
    simp [hword, he, hv]

/-- **Projections are written by the tokens that are consumed for them** behind an arrow. -/
theorem consumes_projectionBlock {bound : Nat} : ∀ (depth : Nat) (arrow : List Lexeme),
    arrow.map Lexeme.token = [.yields] →
    Consumes (fun trees behind => Tree.Projection.Yielded trees (Tree.Projection.AllWrittenBy trees)
      (arrow ++ behind)) (projectionBlock (matchBlock bound) depth)
  | 0, _, _ => fun _ _ _ hr => by cases hr
  | depth + 1, arrow, harrow => by
    have hnamed : Consumes Tree.Projection.AllWrittenBy
        (many (namedProjection (matchBlock bound) (projectionBlock (matchBlock bound) depth))) :=
      (consumes_namedProjection (consumes_matchBlock bound)
        (fun _ _ => fails_matchBlock (by simp))
        (consumes_yielded (L := Tree.Projection.AllWrittenBy)
          (consumes_projectionBlock depth))).many rfl
            fun _ _ first others hc hcs => ⟨first, others, hc, hcs, rfl⟩
    refine Consumes.rule (Consumes.orElse ?_ ?_)
    · refine (takes_sign _).consumes.bind fun _ brace hbrace => ?_
      have hfront : (arrow ++ brace).map Lexeme.token = [.yields, .char '\x7b'] := by
        rw [List.map_append, harrow, hbrace]
        rfl
      have hblock := hnamed.enclosed (f := id)
        (V := fun trees => Tree.Projection.Yielded trees (Tree.Projection.AllWrittenBy trees))
        hfront fun _ _ he => Or.inr (Or.inr he)
      simp only [List.append_assoc] at hblock
      exact hblock
    · refine takes_scalar.consumes.bind fun value behind hv => consumes_pure ?_
      exact Or.inr (Or.inl ⟨value, rfl, by simp [harrow, hv]⟩)

/-! ### Whole texts -/

/-- **What is read from a text is written by its tokens.** -/
theorem writtenBy_of_reads {tree : Tree.Specification} {depth left : Nat}
    {tokens rest : List Lexeme} (h : Reads (specification depth left) tokens tree rest) :
    tree.WrittenBy tokens := by
  simp only [specification, reads_ruleAt, reads_bind, reads_pure] at h
  obtain ⟨_, t1, h1, first, t2, h2, others, t3, h3, _, t4, h4, body, t5, h5, projections, t6, h6, _,
    t7, h7, rfl, -⟩ := h
  obtain ⟨rfl, -⟩ := eq_nil_of_reads_endOfText h7
  obtain ⟨l1, rfl⟩ := reads_sign.mp h1
  obtain ⟨label, rfl, hlabel⟩ := takes_label _ _ _ h2
  obtain ⟨labels, rfl, hlabels⟩ := takes_moreLabels _ _ _ h3
  obtain ⟨l2, rfl⟩ := reads_sign.mp h4
  obtain ⟨block, rfl, hblock⟩ := consumes_matchBlock _ _ _ _ h5
  obtain ⟨tail, rfl, htail⟩ := consumes_yielded (L := Tree.Projection.AllWrittenBy)
    (consumes_projectionBlock depth) _ _ _ h6
  refine ⟨first, others, ⟨.char '(', l1⟩ :: (label ++ (labels ++ [⟨.char ')', l2⟩])), block, tail,
    rfl, ?_, hblock, htail, by simp⟩
  simp [hlabel, hlabels]

end Parser

end FactGraph
