import FactGraph.Proofs.Grammar.Reads
import FactGraph.Proofs.Grammar.Words
import FactGraph.Specification.Reading

/-! # Accepted specifications

A specification is accepted if some text writes it. Accepted specifications are well formed and have
at least one given label, and the types of their given labels are words. -/

namespace FactGraph

/-- Some text writes the specification. -/
def Specification.Accepted (spec : Specification) : Prop :=
  ∃ text, Specification.parse text = .ok spec

/-! ### What the grammar asks of given labels -/

namespace Parser

/-- The token is a word of the language, or no word. -/
def ProperWord (l : Lexeme) : Prop := ∀ name, l.token = .word name → Token.isWord name = true

theorem keeps_identifier : Keeps ProperWord (fun name => Token.isWord name = true) identifier := by
  intro tokens name rest ht hr
  obtain ⟨left, rfl⟩ := reads_identifier.mp hr
  exact ⟨ht ⟨.word name, left⟩ (by simp) name rfl, fun l hl => ht l (List.mem_cons_of_mem _ hl)⟩

theorem keeps_sign (c : Char) : Keeps ProperWord (fun _ => True) (sign c) := by
  intro tokens u rest ht hr
  obtain ⟨left, rfl⟩ := reads_sign.mp hr
  exact ⟨trivial, fun l hl => ht l (List.mem_cons_of_mem _ hl)⟩

theorem keeps_label : Keeps ProperWord
    (fun label => Token.isWord label.name = true ∧ Token.isWord label.type = true) label := by
  intro tokens label rest ht hr
  simp only [Parser.label, reads_rule, reads_bind, reads_pure] at hr
  obtain ⟨name, t1, h1, u, t2, h2, type, t3, h3, rfl, rfl⟩ := hr
  obtain ⟨hn, ht1⟩ := keeps_identifier _ _ _ ht h1
  obtain ⟨-, ht2⟩ := keeps_sign _ _ _ _ ht1 h2
  obtain ⟨hy, ht3⟩ := keeps_identifier _ _ _ ht2 h3
  exact ⟨⟨hn, hy⟩, ht3⟩

theorem given_of_reads_specification {depth left : Nat} {tokens rest : List Lexeme}
    {tree : Tree.Specification} (ht : ∀ l ∈ tokens, ProperWord l)
    (hr : Reads (specification depth left) tokens tree rest) :
    tree.given ≠ [] ∧ ∀ label ∈ tree.given,
      Token.isWord label.name = true ∧ Token.isWord label.type = true := by
  simp only [specification, reads_ruleAt, reads_bind, reads_pure] at hr
  obtain ⟨_, t1, h1, first, t2, h2, others, t3, h3, _, t4, -, _, t5, -, _, t6, -, _, t7, -,
    rfl, -⟩ := hr
  obtain ⟨-, ht1⟩ := keeps_sign _ _ _ _ ht h1
  obtain ⟨hf, ht2⟩ := keeps_label _ _ _ ht1 h2
  have hmore : Keeps ProperWord
      (fun label => Token.isWord label.name = true ∧ Token.isWord label.type = true)
      (do sign ','; label) := by
    intro tokens l rest ht hr
    obtain ⟨_, middle, hc, hl⟩ := reads_bind.mp hr
    exact keeps_label _ _ _ (keeps_sign _ _ _ _ ht hc).2 hl
  obtain ⟨ho, -⟩ := hmore.many _ _ _ ht2 h3
  refine ⟨by simp, fun label hl => ?_⟩
  rcases List.mem_cons.mp hl with rfl | hl
  · exact hf
  · exact ho label hl

end Parser

namespace Specification

theorem of_ofChars {text : List Char} {spec : Specification} (h : ofChars text = .ok spec) :
    ∃ tree rest, Parser.Reads (Parser.specification ((Token.ofText text).length + 1) text.length)
        (Token.ofText text) tree rest ∧ tree.read text = .ok spec ∧ spec.check = .ok () := by
  unfold ofChars treeOf Tree.ofText at h
  rcases hp : Parser.specification ((Token.ofText text).length + 1) text.length
      (Token.ofText text) with ⟨attempts, _ | ⟨tree, rest⟩⟩
  · simp [hp, bind, Except.bind] at h
  · simp only [hp, bind, Except.bind] at h
    split at h
    · cases h
    · rename_i read hread
      split at h
      · cases h
      · rename_i u hcheck
        cases h
        exact ⟨tree, rest, by unfold Parser.Reads; rw [hp], hread, hcheck⟩

theorem given_of_read {text : List Char} {tree : Tree.Specification} {spec : Specification}
    (h : tree.read text = .ok spec) : spec.given = tree.given := by
  simp only [Tree.Specification.read, bind, Except.bind, pure, Except.pure] at h
  split at h
  · cases h
  · split at h
    · cases h
    · cases h
      rfl

namespace Accepted

variable {spec : Specification}

/-- **What is accepted is well formed.** -/
theorem check (h : spec.Accepted) : spec.check = .ok () := by
  obtain ⟨text, h⟩ := h
  obtain ⟨-, -, -, -, hc⟩ := of_ofChars h
  exact hc

theorem given (h : spec.Accepted) : spec.given ≠ [] ∧ ∀ label ∈ spec.given,
    Token.isWord label.name = true ∧ Token.isWord label.type = true := by
  obtain ⟨text, h⟩ := h
  obtain ⟨tree, rest, hr, hread, -⟩ := of_ofChars h
  rw [given_of_read hread]
  exact Parser.given_of_reads_specification
    (fun l hl => Token.isWord_of_mem_scan _ _ _ l hl) hr

end Accepted

end Specification

end FactGraph
