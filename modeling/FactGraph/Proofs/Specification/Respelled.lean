import FactGraph.Proofs.Specification.RoundTrip

/-! # Respelled specifications

A text is accepted exactly if its tokens spell a well-formed specification, and then it writes that
one. So the choices that are left to a spelling have no influence on what a text writes: which side
of a path condition stands first, whether there is an equals sign in front of the block of a nested
projection, and whether an empty projection is written or left out.

* `Specification.parse_eq_ok_iff`: which texts are accepted.
* `Specification.parse_respelled`: texts that spell the same specification. -/

namespace FactGraph.Specification

open Token (read)

variable {text : String} {spec : Specification}

/-- **A text is accepted exactly if its tokens spell a specification that is well formed.** -/
theorem parse_eq_ok_iff : parse text = .ok spec ↔
    spec.check = .ok () ∧ spec.SpelledBy (read text.toList) := by
  constructor
  · intro h
    obtain ⟨tree, rest, hr, hread, hcheck⟩ := of_ofChars h
    have hw : tree.WrittenBy (Token.ofText text.toList) := Parser.writtenBy_of_reads hr
    exact ⟨hcheck, Tree.Specification.spelledBy_of_writtenBy hw hread⟩
  · rintro ⟨hcheck, hspelled⟩
    obtain ⟨tree, htree, hread⟩ := exists_treeOf hspelled
    exact ofChars_of_treeOf htree (hread _) hcheck

/-- **Spelling does not matter.** The tokens of an accepted text spell the specification that it
writes, and every text whose tokens spell the same specification is accepted and writes it as well:
whichever sides of path conditions are exchanged, and whichever equals signs in front of nested
blocks and whichever empty projections are written or left out. -/
theorem parse_respelled (h : parse text = .ok spec) : spec.SpelledBy (read text.toList) ∧
    ∀ other : String, spec.SpelledBy (read other.toList) → parse other = .ok spec := by
  obtain ⟨hcheck, hspelled⟩ := parse_eq_ok_iff.mp h
  exact ⟨hspelled, fun other hother => parse_eq_ok_iff.mpr ⟨hcheck, hother⟩⟩

/-- Projects that are not deleted, with their members, of whom nothing is reported. -/
def projectsWithMembers : Specification :=
  { projectsWhere false [deletion] with
    projections := [.nested "m" [referring "m" "Member" "project" "p" "Project"] []] }

/-- A text in which the unknowns stand in front, and nothing is written that can be left out. -/
def membersShort : String :=
  "(root:Root)\x7bp:Project[p->root:Root=root !E\x7bd:Deleted[d->project:Project=p]\x7d]\x7d" ++
    "=>\x7bm\x7bm:Member[m->project:Project=p]\x7d\x7d"

/-- A text with all sides exchanged and everything written that can be. -/
def membersLong : String :=
  "(root:Root)\x7bp:Project[root=p->root:Root !E\x7bd:Deleted[p=d->project:Project]\x7d]\x7d" ++
    "=>\x7bm=\x7bm:Member[p=m->project:Project]\x7d=>\x7b\x7d\x7d"

theorem spelledBy_membersLong : projectsWithMembers.SpelledBy (read membersLong.toList) := by
  have hexchanged : ∀ name type role target label : String, label ≠ name →
      Match.AllSpelledBy [referring name type role label target]
        (Label.tokens ⟨name, type⟩ ++ .char '[' :: (.word label :: .char '=' ::
          sideTokens name [⟨role, target⟩] ++ [.char ']'])) :=
    fun _ _ _ _ _ hne => ⟨_, _, ⟨_, _, Or.inr ⟨hne, rfl⟩, rfl, rfl⟩, rfl, rfl⟩
  have hdeletion := hexchanged "d" "Deleted" "project" "Project" "p" (by decide)
  have hmember := hexchanged "m" "Member" "project" "Project" "p" (by decide)
  have hbody : Match.BlockSpelledBy projectsWithMembers.body _ :=
    ⟨_, ⟨_, _, ⟨_, _, Or.inr ⟨by decide, rfl⟩, ⟨_, _, ⟨_, hdeletion, rfl⟩, rfl, rfl⟩, rfl⟩, rfl,
      rfl⟩, rfl⟩
  have hmembers : Projection.SpelledBy (.nested "m" _ []) _ :=
    ⟨[.char '='], _, _, Or.inr rfl, ⟨_, hmember, rfl⟩, Or.inr (Or.inr ⟨[], rfl, rfl⟩), rfl⟩
  exact ⟨⟨"root", "Root"⟩, [], _, _, rfl, hbody,
    Or.inr (Or.inr ⟨_, ⟨_, _, hmembers, rfl, rfl⟩, rfl⟩), by decide +kernel⟩

theorem parse_respelled_members : parse membersShort = .ok projectsWithMembers ∧
    parse membersLong = .ok projectsWithMembers := by
  have hshort : parse membersShort = .ok projectsWithMembers := by decide +kernel
  exact ⟨hshort, (parse_respelled hshort).2 membersLong spelledBy_membersLong⟩

end FactGraph.Specification
