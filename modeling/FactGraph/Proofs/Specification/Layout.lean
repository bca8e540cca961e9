import FactGraph.Proofs.Except
import FactGraph.Proofs.Grammar.Characters
import FactGraph.Proofs.Grammar.Places

/-! # Layout does not matter

The grammar over characters knows no tokens, but reading the tokens of a text comes to the same. The
places that a tree keeps are only told in errors. So texts with the same tokens write the same
specification, or are refused for the same reason, whatever blanks and comments stand between their
tokens.

* `Tree.Specification.read_bare`: what a tree stands for does not depend on places.
* `Specification.bimap_treeOf_eq`: the trees of texts with the same tokens.
* `Peg.Answers.bimap_eq`: the grammar over characters makes one thing of a text.
* `Specification.parse_spellings`: texts that spell the same tokens. -/

namespace FactGraph

open Except (bind_eq_bimap)

/-- An error without what depends on places in the text. Only errors of the grammar and of path
conditions without their unknown tell a place. -/
def SpecificationError.placeless : SpecificationError → SpecificationError
  | expected _ _ => expected ⟨1, 1⟩ []
  | unrelatedPath _ unknown => unrelatedPath ⟨1, 1⟩ unknown
  | error => error

/-! ### Reading trees -/

namespace Tree

variable {text : List Char}

theorem Condition.orient_bare {unknown : String} {left : Nat} {first second : Side} :
    Condition.orient [] unknown 0 first second =
      (Condition.orient text unknown left first second).bimap SpecificationError.placeless id := by
  unfold Condition.orient
  split_ifs <;> rfl

mutual

theorem Condition.read_bare {unknown : String} : ∀ {condition : Condition},
    condition.bare.read [] unknown =
      (condition.read text unknown).bimap SpecificationError.placeless id
  | .path _ _ _ => bind_eq_bimap Condition.orient_bare fun _ => rfl
  | .existential _ _ => bind_eq_bimap Clause.readAll_bare fun _ => rfl

theorem Clause.readAll_bare : ∀ {clauses : List Clause},
    Clause.readAll [] (Clause.bareAll clauses) =
      (Clause.readAll text clauses).bimap SpecificationError.placeless id
  | [] => rfl
  | ⟨unknown, conditions⟩ :: _ => by
    have hclause : Clause.read [] ⟨unknown, Condition.bareAll conditions⟩ =
        (Clause.read text ⟨unknown, conditions⟩).bimap SpecificationError.placeless id :=
      bind_eq_bimap Condition.readAll_bare fun _ => rfl
    exact bind_eq_bimap hclause fun _ => bind_eq_bimap Clause.readAll_bare fun _ => rfl

theorem Condition.readAll_bare {unknown : String} : ∀ {conditions : List Condition},
    Condition.readAll [] unknown (Condition.bareAll conditions) =
      (Condition.readAll text unknown conditions).bimap SpecificationError.placeless id
  | [] => rfl
  | _ :: _ => bind_eq_bimap Condition.read_bare fun _ =>
      bind_eq_bimap Condition.readAll_bare fun _ => rfl

end

mutual

theorem Projection.read_bare : ∀ {projection : Projection},
    projection.bare.read [] = (projection.read text).bimap SpecificationError.placeless id
  | .scalar _ _ => rfl
  | .nested _ _ _ => bind_eq_bimap Clause.readAll_bare fun _ =>
      bind_eq_bimap Projection.readAll_bare fun _ => rfl

theorem Projection.readAll_bare : ∀ {projections : List Projection},
    Projection.readAll [] (Projection.bareAll projections) =
      (Projection.readAll text projections).bimap SpecificationError.placeless id
  | [] => rfl
  | _ :: _ => bind_eq_bimap Projection.read_bare fun _ =>
      bind_eq_bimap Projection.readAll_bare fun _ => rfl

end

/-- **What a tree stands for does not depend on places**, except for the place of an error. -/
theorem Specification.read_bare {tree : Specification} :
    tree.bare.read [] = (tree.read text).bimap SpecificationError.placeless id :=
  bind_eq_bimap Clause.readAll_bare fun _ => bind_eq_bimap Projection.readAll_bare fun _ => rfl

end Tree

/-! ### What the grammar makes of a text -/

/-- **The grammar over characters makes one thing of a text**, up to what an error tells about
places. -/
theorem Peg.Answers.bimap_eq {text : List Char}
    {answer answer' : Except SpecificationError Specification} (h : Peg.Answers text answer)
    (h' : Peg.Answers text answer') : answer.bimap SpecificationError.placeless id =
      answer'.bimap SpecificationError.placeless id := by
  cases h with
  | refused h =>
    cases h' with
    | refused => rfl
    | read h' => cases h.unique h'
  | read h ht =>
    cases h' with
    | refused h' => cases h.unique h'
    | read h' ht' =>
      cases h.unique h'
      cases ht.symm.trans ht'
      rfl

/-! ### Texts with the same tokens -/

namespace Specification

/-- The tree of a text without places is what the grammar reads from its tokens. -/
theorem bimap_treeOf (text : List Char) :
    (treeOf text).bimap SpecificationError.placeless Tree.Specification.bare =
      ((Parser.specification ((Token.ofText text).length + 1) text.length
        (Token.ofText text)).result.map fun read => read.1.bare).elim
        (.error (.expected ⟨1, 1⟩ [])) .ok := by
  simp only [treeOf, Tree.ofText]
  rcases Parser.specification ((Token.ofText text).length + 1) text.length (Token.ofText text)
    with ⟨_, _ | ⟨tree, rest⟩⟩ <;> rfl

/-- **Texts with the same tokens have the same tree**, up to places, or have none. -/
theorem bimap_treeOf_eq {a b : List Char} (h : Token.read a = Token.read b) :
    (treeOf a).bimap SpecificationError.placeless Tree.Specification.bare =
      (treeOf b).bimap SpecificationError.placeless Tree.Specification.bare := by
  have hbare : (Token.ofText a).map Lexeme.bare = (Token.ofText b).map Lexeme.bare := by
    have htokens := congrArg (List.map fun token => Lexeme.mk token 0) h
    rwa [Token.read, Token.read, List.map_map, List.map_map] at htokens
  have hlength : (Token.ofText a).length = (Token.ofText b).length := by
    simpa using congrArg List.length hbare
  have ha := Parser.alike_specification ((Token.ofText a).length + 1) a.length 0 (Token.ofText a)
  have hb := Parser.alike_specification ((Token.ofText b).length + 1) b.length 0 (Token.ofText b)
  -- the tokens without places are the same, so both trees are the one that is read from them
  rw [hbare, hlength, hb] at ha
  have htree := congrArg (Option.map Prod.fst) ha
  rw [Option.map_map, Option.map_map] at htree
  rw [bimap_treeOf, bimap_treeOf, hlength]
  exact congrArg (Option.elim · _ _) htree.symm

/-- **Texts with the same tokens write the same specification**, or are refused alike. -/
theorem bimap_ofChars_eq {a b : List Char} (h : Token.read a = Token.read b) :
    (ofChars a).bimap SpecificationError.placeless id =
      (ofChars b).bimap SpecificationError.placeless id := by
  rcases Except.bimap_eq_bimap_iff.mp (bimap_treeOf_eq h) with
    ⟨tree, tree', ha, hb, htree⟩ | ⟨e, e', ha, hb, he⟩
  · have hread : (tree.read a).bimap SpecificationError.placeless id =
        (tree'.read b).bimap SpecificationError.placeless id := by
      rw [← Tree.Specification.read_bare, htree, Tree.Specification.read_bare]
    unfold ofChars
    rw [ha, hb]
    rcases Except.bimap_eq_bimap_iff.mp hread with ⟨spec, spec', hs, hs', rfl⟩ | ⟨e, e', hs, hs', he⟩
    · show (tree.read a >>= _).bimap _ _ = (tree'.read b >>= _).bimap _ _
      rw [hs, hs']
      rfl
    · show (tree.read a >>= _).bimap _ _ = (tree'.read b >>= _).bimap _ _
      rw [hs, hs']
      exact congrArg Except.error he
  · unfold ofChars
    rw [ha, hb]
    exact congrArg Except.error he

/-- **Layout does not matter.** Reading a text is what the grammar over characters makes of it, and
of two texts that spell the same tokens this grammar makes the same specification, or it refuses
both, with the same error up to what it tells about places. -/
theorem parse_spellings {a b : Spelling} (h : a.tokens = b.tokens) :
    Peg.Answers a.chars (parse a.text) ∧ Peg.Answers b.chars (parse b.text) ∧
      ∀ answer answer', Peg.Answers a.chars answer → Peg.Answers b.chars answer' →
        (∃ spec, answer = .ok spec ∧ answer' = .ok spec) ∨
          ∃ e e', answer = .error e ∧ answer' = .error e' ∧ e.placeless = e'.placeless := by
  have hparse : ∀ spelling : Spelling, parse spelling.text = ofChars spelling.chars := by
    intro spelling
    rw [parse, Spelling.text, String.toList_ofList]
  have hread : Token.read a.chars = Token.read b.chars := by
    rw [Spelling.read_chars, Spelling.read_chars, h]
  rw [hparse, hparse]
  refine ⟨Peg.answers_ofChars _, Peg.answers_ofChars _, fun answer answer' ha hb => ?_⟩
  have hsame : answer.bimap SpecificationError.placeless id =
      answer'.bimap SpecificationError.placeless id :=
    calc answer.bimap SpecificationError.placeless id
        = (ofChars a.chars).bimap SpecificationError.placeless id :=
          ha.bimap_eq (Peg.answers_ofChars _)
      _ = (ofChars b.chars).bimap SpecificationError.placeless id := bimap_ofChars_eq hread
      _ = answer'.bimap SpecificationError.placeless id := (Peg.answers_ofChars _).bimap_eq hb
  rcases Except.bimap_eq_bimap_iff.mp hsame with
    ⟨spec, spec', rfl, rfl, rfl⟩ | ⟨e, e', rfl, rfl, he⟩
  · exact Or.inl ⟨spec, rfl, rfl⟩
  · exact Or.inr ⟨e, e', rfl, rfl, he⟩

/-- The tokens of the projects of a root on a condition that never holds, where `E` is the sign of
the condition and no name. -/
def projectTokens : List Token :=
  [.char '(', .word "r", .char ':', .word "R", .char ')', .char '\x7b', .word "p", .char ':',
    .word "P", .char '[', .word "p", .arrow, .word "r", .char ':', .word "R", .char '=', .word "r",
    .char '!', .word "E", .char '\x7b', .char '\x7d', .char ']', .char '\x7d', .yields,
    .word "p"]

/-- Some tokens with the same layout in front of each of them and behind the last. -/
def projectsSpaced (run : List Char) (h : Token.IsLayout run) : Spelling where
  lead := run
  pieces := projectTokens.map (·, run)
  layout_lead := h
  layout := by simpa using fun _ _ => h
  known := by
    have hknown : ∀ t ∈ projectTokens, t.isKnown = true := by decide
    simpa using hknown
  apart := by
    have happart : projectTokens.IsChain fun a b => a.isName = true → b.isName = true → False := by
      decide +kernel
    exact (List.isChain_map (·, run)).mpr (happart.imp fun _ _ hab ha hb => (hab ha hb).elim)

theorem isLayout_commented : Token.IsLayout ['\t', '/', '/', '!', '\r', '\n'] :=
  .blank (by decide) (@Token.IsLayout.comment ['!'] _ _
    (List.forall_mem_singleton.mpr (by decide)) (by decide) (.blank (by decide) .nil))

theorem parse_spellings_projects :
    ∃ compact spaced : Spelling, compact.tokens = spaced.tokens ∧
      compact.text = "(r:R)\x7bp:P[p->r:R=r!E\x7b\x7d]\x7d=>p" ∧
      "\t//!\r\n(\t//!\r\nr\t//!\r\n:".toList <+: spaced.text.toList ∧
      ∃ spec, parse compact.text = .ok spec ∧ parse spaced.text = .ok spec := by
  have htokens : (projectsSpaced [] .nil).tokens = (projectsSpaced _ isLayout_commented).tokens := by
    simp [Spelling.tokens, projectsSpaced]
  have hok : (parse (projectsSpaced [] .nil).text).isOk = true := by decide +kernel
  refine ⟨_, _, htokens, by decide +kernel, by decide +kernel, ?_⟩
  obtain ⟨hcompact, hspaced, hsame⟩ := parse_spellings htokens
  rcases hsame _ _ hcompact hspaced with h | ⟨e, e', he, -⟩
  · exact h
  · rw [he] at hok
    cases hok

end Specification

end FactGraph
