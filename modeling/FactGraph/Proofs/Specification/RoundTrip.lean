import FactGraph.Proofs.Except
import FactGraph.Proofs.Grammar.Recognised
import FactGraph.Proofs.Grammar.Trees
import FactGraph.Proofs.Specification.Accepted

/-! # Specifications and their texts

A tree that stands for a specification is read from all tokens that spell it, such as those of its
text if it is printable. So the text is that of no other printable specification, and reading it
gives the specification back if it is well formed.

* `Specification.exists_treeOf`: a specification is read from the tokens that spell it.
* `Specification.eq_of_render_eq`: the text belongs to one specification only.
* `Specification.parse_render`: a specification is read from its text. -/

namespace FactGraph

/-! ### Whole texts -/

theorem Specification.exists_treeOf {spec : Specification} {text : List Char}
    (h : spec.SpelledBy (Token.read text)) :
    ∃ tree, treeOf text = .ok tree ∧ ∀ text, tree.read text = .ok spec := by
  obtain ⟨tree, hw, hread⟩ := exists_writtenBy h
  exact ⟨tree, treeOf_eq_ok_iff.mpr hw, hread⟩

theorem Specification.exists_treeOf_render {spec : Specification} (h : spec.isPrintable = true) :
    ∃ tree, treeOf spec.render.toList = .ok tree ∧ ∀ text, tree.read text = .ok spec := by
  refine exists_treeOf ?_
  rw [read_render h]
  exact spelledBy_tokens h

theorem Specification.eq_of_render_eq {spec other : Specification} (h : spec.isPrintable = true)
    (ho : other.isPrintable = true) (heq : spec.render = other.render) : spec = other := by
  obtain ⟨tree, htree, hread⟩ := exists_treeOf_render h
  obtain ⟨tree', htree', hread'⟩ := exists_treeOf_render ho
  rw [heq] at htree
  obtain rfl : tree = tree' := Except.ok.inj (htree.symm.trans htree')
  exact Except.ok.inj ((hread []).symm.trans (hread' []))

theorem Specification.ofChars_of_treeOf {spec : Specification} {text : List Char}
    {tree : Tree.Specification} (htree : treeOf text = .ok tree) (hread : tree.read text = .ok spec)
    (h : spec.check = .ok ()) : ofChars text = .ok spec :=
  Except.bind_eq_ok_iff.mpr ⟨tree, htree, Except.bind_eq_ok_iff.mpr ⟨spec, hread,
    Except.bind_eq_ok_iff.mpr ⟨(), h, rfl⟩⟩⟩

theorem Specification.accepted_of_isPrintable {spec : Specification} (h : spec.check = .ok ())
    (hp : spec.isPrintable = true) : spec.Accepted := by
  obtain ⟨tree, htree, hread⟩ := exists_treeOf_render hp
  exact ⟨spec.render, ofChars_of_treeOf htree (hread _) h⟩

/-- A specification that only has a given label is accepted, if its name and type are words. -/
theorem Specification.accepted_of_given {label : Label} (hn : Token.isWord label.name = true)
    (hy : Token.isWord label.type = true) : Accepted ⟨[label], [], []⟩ := by
  refine accepted_of_isPrintable rfl ?_
  simp [isPrintable, Label.isPrintable, hn, hy, Match.allPrintable, Projection.allPrintable]

/-- **A specification is read from its text**, if it is well formed and its names are words. -/
theorem Specification.parse_render (spec : Specification) (h : spec.check = .ok ())
    (hp : spec.isPrintable = true) : Specification.parse spec.render = .ok spec := by
  obtain ⟨tree, htree, hread⟩ := exists_treeOf_render hp
  exact ofChars_of_treeOf htree (hread _) h

/-! ### Projects with a condition -/

namespace Specification

/-- Facts of a type that name the fact of a label in a role. -/
def referring (name type role label target : String) : Match :=
  ⟨⟨name, type⟩, [.path ⟨[⟨role, target⟩], label, []⟩]⟩

/-- The projects of a root for which some matches can be satisfied, or cannot. -/
def projectsWhere (holds : Bool) (block : List Match) : Specification :=
  ⟨[⟨"root", "Root"⟩],
    [⟨⟨"p", "Project"⟩, [.path ⟨[⟨"root", "Root"⟩], "root", []⟩, .existential holds block]⟩], []⟩

/-- The deletions of a project. -/
def deletion : Match := referring "d" "Deleted" "project" "p" "Project"

theorem accepted_withoutDeletion : (projectsWhere false [deletion]).Accepted :=
  accepted_of_isPrintable rfl rfl

/-- Projects that are not deleted, with the names of their members. The members have the label `E`,
which is the sign of an existential condition as well. -/
def membersOfProjects : Specification :=
  { projectsWhere false [deletion] with
    projections := [.hash "id" "p", .nested "members"
      [referring "E" "Member" "project" "p" "Project"] [.field "" "E" "name"]] }

theorem parse_render_membersOfProjects : membersOfProjects.check = .ok () ∧
    membersOfProjects.isPrintable = true ∧
    parse membersOfProjects.render = .ok membersOfProjects := by
  have hcheck : membersOfProjects.check = .ok () := rfl
  have hprintable : membersOfProjects.isPrintable = true := rfl
  exact ⟨hcheck, hprintable, parse_render _ hcheck hprintable⟩

end Specification

end FactGraph
