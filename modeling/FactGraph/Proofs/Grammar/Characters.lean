import FactGraph.Proofs.Grammar.Follows

/-! # The grammar over characters and the grammar over tokens

Rule by rule the readers of tokens follow the expressions over characters, down to any depth of
blocks. So it makes no difference that a text is cut into tokens before it is read, although the
expressions know no tokens.

* `Parser.follows_matchBlock`, `Parser.follows_projectionBlock`: blocks and projections.
* `Peg.parses_specification`: **a text is a specification for the one grammar exactly if it is one
  for the other**, and the tree is the same.
* `Peg.answers_ofChars`: reading a text is what the grammar over characters makes of it. -/

namespace FactGraph

open Token (ofText Settled)
open Peg (Parses)

/-! ### Nodes of scalars -/

namespace Node

variable {node : Node} {value : Tree.Scalar}

theorem rule_ne_of_scalar? (h : node.scalar? = some value) :
    node.rule ≠ .specificationProjection := by
  unfold scalar? at h
  split at h
  · nofun
  · nofun
  · cases h

theorem element?_of_scalar? (h : node.scalar? = some value) :
    node.element? = some (.scalar "" value) := by
  have hscalar : node.element? = (do return .scalar "" (← node.scalar?)) := by
    unfold scalar? at h
    split at h
    · rfl
    · rfl
    · cases h
  rw [hscalar, h]
  rfl

end Node

namespace Parser

variable {whole : List Char} {bound : Nat}

/-! ### Labels and paths -/

theorem follows_label :
    Follows whole bound 1 (.rule .label) (Stands .label Node.label?) label := by
  refine Follows.mono (Follows.rule ?_) le_rfl (Nat.le_add_right 1 (1 + 1))
  refine follows_identifier.bind fun name _ hname =>
    (follows_sign (by decide)).bind fun _ _ hsign =>
    follows_identifier.map fun type _ htype => ?_
  obtain ⟨_, rfl, rfl⟩ := hname
  obtain ⟨_, rfl, rfl⟩ := htype
  subst hsign
  exact fun _ _ => rfl

theorem follows_role : Follows whole bound 1 (.rule .role) (Stands .role Node.role?) role := by
  refine Follows.mono (Follows.rule ?_) le_rfl (Nat.le_add_right 1 (1 + (1 + 1)))
  refine follows_arrow.bind fun _ _ harrow => follows_identifier.bind fun name _ hname =>
    (follows_sign (by decide)).bind fun _ _ hsign =>
    follows_identifier.map fun target _ htarget => ?_
  obtain ⟨_, rfl, rfl⟩ := hname
  obtain ⟨_, rfl, rfl⟩ := htarget
  subst harrow hsign
  exact fun _ _ => rfl

theorem follows_side : Follows whole bound 1 (.rule .side) (Stands .side Node.side?) side := by
  have hroles : Follows whole (bound - 1) 0 (.many (.rule .role))
      (fun roles nodes => nodes.mapM Node.role? = some roles) (many role) := by
    refine follows_role.many rfl fun role roles front behind hrole hroles => ?_
    obtain ⟨node, rfl, -, hrole⟩ := hrole
    rw [List.singleton_append, List.mapM_cons, hrole, hroles]
    rfl
  refine Follows.rule (follows_identifier.bind fun label _ hlabel =>
    hroles.map fun roles nodes h => ?_)
  obtain ⟨_, rfl, rfl⟩ := hlabel
  intro left chars
  rw [List.singleton_append, Node.side?, h]
  rfl

/-- **Path conditions** keep the place where their rule starts. -/
theorem follows_pathCondition : Follows whole bound 1 (.rule .pathCondition)
    (Stands .pathCondition Node.condition?) pathCondition := by
  intro cs hcs hn
  have hsides : Follows whole bound (1 + (0 + 1)) (Peg.expression .pathCondition)
      (fun condition inner => ∀ chars,
        Node.condition? ⟨.pathCondition, cs.length, chars, inner⟩ = some condition)
      (do
        let first ← side
        equals
        let second ← side
        return Tree.Condition.path cs.length first second) := by
    refine follows_side.bind fun first _ hfirst => follows_equals.bind fun _ _ hequals =>
      follows_side.map fun second _ hsecond => ?_
    obtain ⟨_, rfl, -, hfirst⟩ := hfirst
    obtain ⟨_, rfl, -, hsecond⟩ := hsecond
    subst hequals
    intro chars
    show (do return Tree.Condition.path cs.length (← _) (← _)) = _
    rw [hfirst, hsecond]
    rfl
  rw [← Token.place_of_settled hcs] at hsides
  rcases hsides cs hcs hn with ⟨hf, hp⟩ | ⟨a, nodes, rest, hr, hp, hw, hlength⟩
  · exact Or.inl ⟨fails_rule.mpr hf, .ruleFails hp⟩
  · refine Or.inr ⟨a, _, rest, reads_rule.mpr hr, .rule hp, ⟨_, rfl, rfl, ?_⟩, by omega⟩
    rw [← Token.place_of_settled hcs]
    exact hw _

/-! ### Blocks of matches -/

/-- A block of matches is read by `block` where few tokens are left. -/
def FollowsBlock (whole : List Char) (bound : Nat) (block : Parser (List Tree.Clause)) : Prop :=
  Follows whole bound 1 (.rule .matchBlock) (Stands .matchBlock Node.block?) block

variable {block : Parser (List Tree.Clause)}

theorem follows_condition (hb : FollowsBlock whole bound block) :
    Follows whole bound 1 Peg.condition (Single Node.condition?) (condition block) := by
  have hnegative : Follows whole bound 1 (.rule .negativeExistential)
      (Stands .negativeExistential Node.condition?) (negativeExistential block) := by
    refine Follows.mono (Follows.rule ?_) le_rfl (Nat.le_add_right 1 (1 + 1))
    refine (follows_sign (by decide)).bind fun _ _ hsign =>
      follows_existsSign.bind fun _ _ hexists =>
      (hb.mono (by omega) le_rfl).map fun clauses _ hclauses => ?_
    obtain ⟨_, rfl, -, hclauses⟩ := hclauses
    subst hsign hexists
    intro left chars
    show (do return Tree.Condition.existential false (← Node.block? _)) = _
    rw [hclauses]
    rfl
  have hpositive : Follows whole bound 1 (.rule .positiveExistential)
      (Stands .positiveExistential Node.condition?) (positiveExistential block) := by
    refine Follows.mono (Follows.rule ?_) le_rfl (Nat.le_add_right 1 1)
    refine follows_existsSign.bind fun _ _ hexists =>
      (hb.mono (by omega) le_rfl).map fun clauses _ hclauses => ?_
    obtain ⟨_, rfl, -, hclauses⟩ := hclauses
    subst hexists
    intro left chars
    show (do return Tree.Condition.existential true (← Node.block? _)) = _
    rw [hclauses]
    rfl
  exact hnegative.single.orElse (hpositive.single.orElse follows_pathCondition.single)

theorem follows_clause (hb : FollowsBlock whole bound block) :
    Follows whole bound 1 (.rule .matchClause) (Stands .matchClause Node.clause?)
      (clause block) := by
  have hconditions : Follows whole (bound - 1 - 1) 0 (.many Peg.condition)
      (fun conditions nodes => Node.conditions? nodes = some conditions)
      (many (condition block)) := by
    refine (follows_condition (hb.mono (by omega) le_rfl)).many rfl
      fun condition conditions front behind hcondition hconditions => ?_
    obtain ⟨node, rfl, hcondition⟩ := hcondition
    rw [List.singleton_append, Node.conditions?, hcondition, hconditions]
    rfl
  refine Follows.mono (Follows.rule ?_) le_rfl (Nat.le_add_right 1 (1 + (0 + 1)))
  refine follows_label.bind fun unknown _ hunknown =>
    (follows_sign (by decide)).bind fun _ _ hopen =>
    hconditions.bind fun conditions nodes hnodes =>
    (follows_sign (by decide)).map fun _ _ hclose => ?_
  obtain ⟨_, rfl, -, hunknown⟩ := hunknown
  subst hopen hclose
  intro left chars
  simp only [List.singleton_append, List.nil_append, List.append_nil]
  rw [Node.clause?, hunknown, hnodes]
  rfl

/-- **Blocks of matches**, which are read to the depth of the number of tokens. -/
theorem follows_matchBlock : ∀ depth : Nat, FollowsBlock whole depth (matchBlock depth)
  | 0 => fun _ _ h => absurd h (Nat.not_lt_zero _)
  | depth + 1 => by
    have hclauses : Follows whole depth 0 (.many (.rule .matchClause))
        (fun clauses nodes => Node.clauses? nodes = some clauses)
        (many (clause (matchBlock depth))) := by
      refine (follows_clause (follows_matchBlock depth)).many rfl
        fun clause clauses front behind hclause hclauses => ?_
      obtain ⟨node, rfl, -, hclause⟩ := hclause
      rw [List.singleton_append, Node.clauses?, hclause, hclauses]
      rfl
    refine Follows.mono (Follows.rule ?_) le_rfl (Nat.le_add_right 1 (0 + 1))
    refine (follows_sign (by decide)).bind fun _ _ hopen =>
      hclauses.bind fun clauses nodes hnodes => (follows_sign (by decide)).map fun _ _ hclose => ?_
    subst hopen hclose
    intro left chars
    simpa [Node.block?] using hnodes

/-! ### Projections -/

theorem follows_scalar :
    Follows whole bound 1 Peg.scalarProjection (Single Node.scalar?) scalar := by
  have hhash : Follows whole bound 1 (.rule .hashProjection)
      (Stands .hashProjection Node.scalar?) (rule .hashProjection do
        sign '#'
        return .hash (← identifier)) := by
    refine Follows.mono (Follows.rule ?_) le_rfl (Nat.le_add_right 1 1)
    refine (follows_sign (by decide)).bind fun _ _ hsign =>
      follows_identifier.map fun _ _ hname => ?_
    obtain ⟨_, rfl, rfl⟩ := hname
    subst hsign
    exact fun _ _ => rfl
  have hreference : Follows whole bound 1 (.rule .referenceProjection)
      (Stands .referenceProjection Node.scalar?) (rule .referenceProjection do
        return .reference (← identifier)) := by
    refine Follows.rule (follows_identifier.map fun _ _ hname => ?_)
    obtain ⟨_, rfl, rfl⟩ := hname
    exact fun _ _ => rfl
  exact hhash.single.orElse hreference.single

/-- The node of a projection that is yielded, or none. -/
def Yields (projections : List Tree.Projection) (nodes : List Node) : Prop :=
  nodes = [] ∧ projections = [] ∨ Stands .projectionBlock Node.projections? projections nodes

theorem Yields.yielded? {projections : List Tree.Projection} {nodes : List Node}
    (h : Yields projections nodes) : Node.yielded? nodes = some projections := by
  rcases h with ⟨rfl, rfl⟩ | ⟨node, rfl, -, h⟩
  · rfl
  · exact h

/-- A projection is read by `projection` where few tokens are left. -/
def FollowsProjection (whole : List Char) (bound : Nat)
    (projection : Parser (List Tree.Projection)) : Prop :=
  Follows whole bound 1 (.rule .projectionBlock) (Stands .projectionBlock Node.projections?)
    projection

variable {projection : Parser (List Tree.Projection)}

theorem follows_yielded (hp : FollowsProjection whole bound projection) :
    Follows whole bound 0 Peg.yielded Yields (yielded projection) := by
  have hyields : Follows whole bound (1 + 1) (.seq (.text ['=', '>']) (.rule .projectionBlock))
      (Stands .projectionBlock Node.projections?) (do
        token .yields
        projection) :=
    follows_yields.bind fun _ _ hsign => by
      subst hsign
      exact hp.mono (by omega) le_rfl
  refine hyields.optional.map fun read nodes h => ?_
  cases read with
  | none => exact Or.inl ⟨h, rfl⟩
  | some projections => exact Or.inr h

theorem follows_specificationProjection (hb : FollowsBlock whole bound block)
    (hp : FollowsProjection whole bound projection) :
    Follows whole bound 1 (.rule .specificationProjection)
      (Stands .specificationProjection Node.nested?)
      (specificationProjection block projection) := by
  refine Follows.rule (hb.bind fun clauses _ hclauses =>
    (follows_yielded (hp.mono (by omega) le_rfl)).map fun projections nodes hyields => ?_)
  obtain ⟨_, rfl, -, hclauses⟩ := hclauses
  intro left chars
  rw [List.singleton_append, Node.nested?, hclauses, hyields.yielded?]
  rfl

theorem follows_namedProjection (hb : FollowsBlock whole bound block)
    (hp : FollowsProjection whole bound projection) :
    Follows whole bound 1 (.rule .namedProjection) (Stands .namedProjection Node.element?)
      (namedProjection block projection) := by
  refine Follows.mono (Follows.rule (Follows.distribute ?_)) le_rfl (Nat.le_add_right 1 1)
  refine follows_identifier.bind fun name _ hname => ?_
  obtain ⟨node, rfl, rfl⟩ := hname
  refine Follows.orElse ?_ ?_
  · show Follows _ _ _ _ _ (optional equals >>= fun _ =>
      specificationProjection block projection >>= fun read =>
        pure (Tree.Projection.nested node.name read.1 read.2))
    refine Follows.mono (follows_equals.optional.bind fun sign nodes hsign =>
      (follows_specificationProjection (hb.mono (by omega) le_rfl) (hp.mono (by omega) le_rfl)).map
        fun read _ hread => ?_) le_rfl (Nat.le_add_left 1 0)
    obtain ⟨body, rfl, hrule, hread⟩ := hread
    have hnone : nodes = [] := by cases sign <;> exact hsign
    subst hnone
    intro left chars
    simp only [List.singleton_append, List.nil_append]
    rw [Node.element?, if_pos hrule, hread]
    rfl
  · refine Follows.mono (follows_equals.bind fun _ _ hsign => follows_scalar.map
      fun value _ hvalue => ?_) le_rfl (Nat.le_add_left 1 0)
    obtain ⟨body, rfl, hvalue⟩ := hvalue
    subst hsign
    intro left chars
    simp only [List.singleton_append, List.nil_append]
    rw [Node.element?, if_neg (Node.rule_ne_of_scalar? hvalue), hvalue]
    rfl

/-- **Projections**, which are read to the depth of the number of tokens. -/
theorem follows_projectionBlock : ∀ {depth : Nat}, depth ≤ bound → FollowsBlock whole bound block →
    FollowsProjection whole depth (projectionBlock block depth)
  | 0, _, _ => fun _ _ h => absurd h (Nat.not_lt_zero _)
  | depth + 1, hd, hb => by
    have hnamed : Follows whole depth 0 (.many (.rule .namedProjection))
        (fun elements nodes => Node.elements? nodes = some elements)
        (many (namedProjection block (projectionBlock block depth))) := by
      refine (follows_namedProjection (hb.mono (by omega) le_rfl)
        (follows_projectionBlock (by omega) hb)).many rfl
          fun element elements front behind helement helements => ?_
      obtain ⟨node, rfl, -, helement⟩ := helement
      rw [List.singleton_append, Node.elements?, helement, helements]
      rfl
    refine Follows.rule (Follows.orElse ?_ ?_)
    · refine Follows.mono ?_ le_rfl (Nat.le_add_right 1 (0 + 1))
      refine (follows_sign (by decide)).bind fun _ _ hopen =>
        hnamed.bind fun elements nodes hnodes => (follows_sign (by decide)).map fun _ _ hclose => ?_
      subst hopen hclose
      intro left chars
      simpa [Node.projections?] using hnodes
    · refine follows_scalar.map fun value _ hvalue => ?_
      obtain ⟨node, rfl, hvalue⟩ := hvalue
      intro left chars
      rw [Node.projections?, Node.elements?, Node.element?_of_scalar? hvalue]
      rfl

/-! ### Whole texts -/

theorem enter?_label {tree : Tree.Specification} {label : Label} {nodes : List Node}
    (h : Stands .label Node.label? label nodes) :
    nodes.foldlM Node.enter? tree = some { tree with given := tree.given ++ [label] } := by
  obtain ⟨node, rfl, hrule, h⟩ := h
  rw [List.foldlM_cons, Node.enter?, hrule]
  simp only [h]
  rfl

theorem enter?_block {tree : Tree.Specification} {body : List Tree.Clause} {nodes : List Node}
    (h : Stands .matchBlock Node.block? body nodes) :
    nodes.foldlM Node.enter? tree = some { tree with body := body } := by
  obtain ⟨node, rfl, hrule, h⟩ := h
  rw [List.foldlM_cons, Node.enter?, hrule]
  simp only [h]
  rfl

theorem enter?_yields {given : List Label} {body : List Tree.Clause}
    {projections : List Tree.Projection} {nodes : List Node} (h : Yields projections nodes) :
    nodes.foldlM Node.enter? ⟨given, body, []⟩ = some ⟨given, body, projections⟩ := by
  rcases h with ⟨rfl, rfl⟩ | ⟨node, rfl, hrule, h⟩
  · rfl
  · rw [List.foldlM_cons, Node.enter?, hrule]
    simp only [h]
    rfl

theorem follows_moreLabels :
    Follows whole bound 0 (.many (.seq (.text [',']) (.rule .label)))
      (fun others nodes => ∀ tree : Tree.Specification, nodes.foldlM Node.enter? tree =
        some { tree with given := tree.given ++ others })
      (many do
        sign ','
        label) := by
  have hmore : Follows whole bound (1 + 1) (.seq (.text [',']) (.rule .label))
      (Stands .label Node.label?) (do
        sign ','
        label) :=
    (follows_sign (by decide)).bind fun _ _ hsign => by
      subst hsign
      exact follows_label
  refine (hmore.mono le_rfl (Nat.le_add_right 1 1)).many (fun tree => ?_)
    fun label others front behind hlabel hothers tree => ?_
  · rw [List.foldlM_nil, List.append_nil]
    rfl
  · rw [List.foldlM_append, enter?_label hlabel]
    exact (hothers _).trans (by rw [List.append_assoc, List.singleton_append])

/-- **Specifications**, from the first parenthesis on. -/
theorem follows_specification {depth : Nat} : Follows whole depth 1
    (.inOrder [.text ['('], .rule .label, .many (.seq (.text [',']) (.rule .label)), .text [')'],
      .rule .matchBlock, Peg.yielded, .rule .endOfInput])
    (fun tree nodes => nodes.foldlM Node.enter? ⟨[], [], []⟩ = some tree) (do
      sign '('
      let first ← label
      let others ← many do
        sign ','
        label
      sign ')'
      let body ← matchBlock depth
      let projections ← yielded (projectionBlock (matchBlock depth) depth)
      rule .endOfInput endOfText
      return ⟨first :: others, body, projections⟩) := by
  have hblock : FollowsBlock whole depth (matchBlock depth) := follows_matchBlock depth
  have hprojection := follows_projectionBlock le_rfl hblock
  refine Follows.mono ?_ le_rfl (Nat.le_add_right 1 (1 + (0 + (1 + (1 + (0 + 0))))))
  refine (follows_sign (by decide)).bind fun _ _ hopen => follows_label.bind fun first _ hfirst =>
    follows_moreLabels.bind fun others _ hothers =>
    (follows_sign (by decide)).bind fun _ _ hclose =>
    (hblock.mono (by omega) le_rfl).bind fun body _ hbody =>
    (follows_yielded (hprojection.mono (by omega) le_rfl)).bind fun projections _ hyields =>
    follows_endOfText.map fun _ _ hend => ?_
  subst hopen hclose
  obtain ⟨last, rfl, hlast, -⟩ := hend
  simp only [List.nil_append, List.foldlM_append, enter?_label hfirst, hothers, enter?_block hbody,
    enter?_yields hyields, Option.bind_eq_bind, Option.bind_some]
  rw [List.foldlM_cons, Node.enter?, hlast]
  rfl

end Parser

theorem Tree.ofText_of_reads {text : List Char} {tree : Tree.Specification} {rest : List Lexeme}
    (h : Parser.Reads (Parser.specification ((Token.ofText text).length + 1) text.length)
      (Token.ofText text) tree rest) : Tree.ofText text = .ok tree := by
  unfold Parser.Reads at h
  unfold Tree.ofText
  rcases hp : Parser.specification ((Token.ofText text).length + 1) text.length
    (Token.ofText text) with ⟨attempts, result⟩
  rw [hp] at h
  cases h
  simp only [hp]

theorem Tree.ofText_of_fails {text : List Char}
    (h : Parser.Fails (Parser.specification ((Token.ofText text).length + 1) text.length)
      (Token.ofText text)) : ∃ attempts, Tree.ofText text = .error attempts := by
  unfold Parser.Fails at h
  unfold Tree.ofText
  rcases hp : Parser.specification ((Token.ofText text).length + 1) text.length
    (Token.ofText text) with ⟨attempts, result⟩
  rw [hp] at h
  cases h
  exact ⟨attempts, by simp only [hp]⟩

namespace Peg

theorem parses_specification_from {text next : List Char} {outcome : Option (List Node × List Char)}
    (hgap : Parses text false (gap true) text (some ([], next)))
    (h : Parses text true (.inOrder [.text ['('], .rule .label,
      .many (.seq (.text [',']) (.rule .label)), .text [')'], .rule .matchBlock, yielded,
      .rule .endOfInput]) next outcome) :
    Parses text true (expression .specification) text outcome := by
  rcases outcome with _ | ⟨nodes, rest⟩
  · exact .seqFailsBehind (.start rfl) hgap h
  · exact .seq (.start rfl) hgap h

/-- **The grammar over characters and the grammar over tokens agree on every text.** Either it fits
neither of them, or it fits both, and the tree of its tokens is the one that its node stands for. -/
theorem parses_specification (text : List Char) :
    (∃ attempts, Tree.ofText text = .error attempts) ∧
      Parses text true (.rule .specification) text none ∨
    ∃ tree node rest, Tree.ofText text = .ok tree ∧
      Parses text true (.rule .specification) text (some ([node], rest)) ∧
        node.specification? = some tree := by
  obtain ⟨next, hgap, hnext, htokens⟩ := exists_settled text text
  have hfollows := @Parser.follows_specification text _ next hnext (Nat.lt_succ_self _)
  rw [htokens] at hfollows
  rcases hfollows with ⟨hf, hp⟩ | ⟨tree, nodes, rest, hr, hp, hw, -⟩
  · exact Or.inl ⟨Tree.ofText_of_fails (Parser.fails_ruleAt.mpr hf),
      .ruleFails (parses_specification_from hgap hp)⟩
  · exact Or.inr ⟨tree, _, rest, Tree.ofText_of_reads (Parser.reads_ruleAt.mpr hr),
      .rule (parses_specification_from hgap hp), hw⟩

/-- **Reading a text is what the grammar over characters makes of it.** -/
theorem answers_ofChars (text : List Char) : Answers text (Specification.ofChars text) := by
  unfold Specification.ofChars Specification.treeOf
  rcases parses_specification text with
    ⟨⟨attempts, he⟩, hp⟩ | ⟨tree, node, rest, he, hp, htree⟩
  · rw [he]
    exact .refused hp
  · rw [he]
    exact .read hp htree

end Peg

end FactGraph
