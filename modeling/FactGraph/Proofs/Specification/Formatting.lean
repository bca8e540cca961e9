import FactGraph.Proofs.Grammar.Names
import FactGraph.Proofs.Specification.RoundTrip

/-! # Formatting texts

Whatever a text writes is printable and well formed, so it is read again from its own text, which
does not change any more. The sides of path conditions, the layout and the comments of the first
text may differ from those of the second.

* `Specification.parse_normalises`: what is accepted has a text of its own, which is formatted. -/

namespace FactGraph.Specification

/-- The text of the specification that a text writes. -/
def format (text : String) : Except SpecificationError String := (parse text).map render

theorem format_of_parse {text : String} {spec : Specification} (h : parse text = .ok spec) :
    format text = .ok spec.render := by
  rw [format, h]
  rfl

/-- **Everything that is accepted is printable and well formed, and its text is a normal form.** It
has a given label, its names are words of the language, and it is read from its own text; so
formatting a formatted text changes nothing. -/
theorem parse_normalises {text : String} {spec : Specification} (h : parse text = .ok spec) :
    spec.given ≠ [] ∧ spec.isPrintable = true ∧ spec.check = .ok () ∧
      parse spec.render = .ok spec ∧
      format text = .ok spec.render ∧ format spec.render = .ok spec.render := by
  have hgiven : spec.given ≠ [] := (Accepted.given ⟨text, h⟩).1
  have hprintable : spec.isPrintable = true := isPrintable_of_ofChars h
  have hcheck : spec.check = .ok () := Accepted.check ⟨text, h⟩
  obtain ⟨tree, htree, hread⟩ := exists_treeOf_render hprintable
  have hparse : parse spec.render = .ok spec := ofChars_of_treeOf htree (hread _) hcheck
  exact ⟨hgiven, hprintable, hcheck, hparse, format_of_parse h, format_of_parse hparse⟩

/-- A text on one line, with the unknown on the right side of its path condition, an equals sign in
front of a nested projection, and a field whose name has dots. -/
def projectsInOneLine : String :=
  "(root:Root)\x7bp:Project[root=p->root:Root]\x7d=>\x7bn=\x7b\x7d=>p.name..last\x7d//projects"

/-- The projects of a root and their names, in a nested projection without matches. -/
def projectsWithNestedName : Specification :=
  ⟨[⟨"root", "Root"⟩], [referring "p" "Project" "root" "root" "Root"],
    [.nested "n" [] [.field "" "p" "name..last"]]⟩

theorem parse_normalises_projectsInOneLine : parse projectsInOneLine = .ok projectsWithNestedName ∧
    projectsWithNestedName.isPrintable = true ∧
    format projectsInOneLine = .ok projectsWithNestedName.render ∧
    format projectsWithNestedName.render = .ok projectsWithNestedName.render := by
  have hparse : parse projectsInOneLine = .ok projectsWithNestedName := by decide +kernel
  obtain ⟨-, hprintable, -, -, hformat, hagain⟩ := parse_normalises hparse
  exact ⟨hparse, hprintable, hformat, hagain⟩

end FactGraph.Specification
