import FactGraph.Specification.Peg
import Mathlib.Tactic.Common

/-! # Parsing expressions

What an expression makes of some characters is determined by them. An expression that takes one
character of a class takes all of them as a repetition.

* `Peg.Parses.unique`: an expression makes one thing of some characters.
* `Peg.IsClass.parses_many`: repetitions of a class of characters. -/

namespace FactGraph.Peg

variable {whole cs : List Char} {spaced : Bool} {e e' e'' : Peg} {p q : Char → Bool}
  {outcome outcome' : Option (List Node × List Char)}

/-! ### Parsing -/

/-- **An expression makes one thing of some characters.** -/
theorem Parses.unique (h : Parses whole spaced e cs outcome)
    (h' : Parses whole spaced e cs outcome') : outcome = outcome' := by
  induction h generalizing outcome' with
  | text h =>
    cases h' with
    | text h' =>
      subst h
      rw [List.append_cancel_left h']
    | textFails h' => exact absurd ⟨_, h.symm⟩ h'
  | textFails h =>
    cases h' with
    | text h' => exact absurd ⟨_, h'.symm⟩ h
    | textFails => rfl
  | one h =>
    cases h' with
    | one => rfl
    | oneFails h' => simp [h] at h'
  | oneFails h =>
    cases h' with
    | one h' => simp [h'] at h
    | oneFails => rfl
  | start h =>
    cases h' with
    | start => rfl
    | startFails h' => exact absurd h h'
  | startFails h =>
    cases h' with
    | start h' => exact absurd h' h
    | startFails => rfl
  | rule _ ih =>
    cases h' with
    | rule h' => cases ih h'; rfl
    | ruleFails h' => cases ih h'
  | ruleFails _ ih =>
    cases h' with
    | rule h' => cases ih h'
    | ruleFails => rfl
  | seq _ _ _ ih ihgap ih' =>
    cases h' with
    | seq h hgap h' => cases ih h; cases ihgap hgap; cases ih' h'; rfl
    | seqFails h => cases ih h
    | seqFailsBehind h hgap h' => cases ih h; cases ihgap hgap; cases ih' h'
  | seqFails _ ih =>
    cases h' with
    | seq h => cases ih h
    | seqFails => rfl
    | seqFailsBehind h => cases ih h
  | seqFailsBehind _ _ _ ih ihgap ih' =>
    cases h' with
    | seq h hgap h' => cases ih h; cases ihgap hgap; cases ih' h'
    | seqFails => rfl
    | seqFailsBehind => rfl
  | choice _ ih =>
    cases h' with
    | choice h => exact ih h
    | choiceOther h => cases ih h
  | choiceOther _ _ ih ih' =>
    cases h' with
    | choice h => cases ih h
    | choiceOther _ h' => exact ih' h'
  | manyNone _ ih =>
    cases h' with
    | manyNone => rfl
    | many h => cases ih h
  | many _ _ ih ih' =>
    cases h' with
    | manyNone h => cases ih h
    | many h h' => cases ih h; cases ih' h'; rfl
  | moreNone _ _ ihgap ih =>
    cases h' with
    | moreNone => rfl
    | more hgap h => cases ihgap hgap; cases ih h
  | more _ _ _ ihgap ih ih' =>
    cases h' with
    | moreNone hgap h => cases ihgap hgap; cases ih h
    | more hgap h h' => cases ihgap hgap; cases ih h; cases ih' h'; rfl
  | not _ ih =>
    cases h' with
    | not => rfl
    | notFails h => cases ih h
  | notFails _ ih =>
    cases h' with
    | not h => cases ih h
    | notFails => rfl
  | atomic _ ih =>
    cases h' with
    | atomic h => exact ih h

theorem Parses.many_of_more (h : Parses whole false (.more e) cs outcome) :
    Parses whole false (.many e) cs outcome := by
  have hgap : Parses whole false (gap false) cs (some ([], cs)) := .text rfl
  cases h with
  | moreNone hnext h =>
    cases hgap.unique hnext
    exact .manyNone h
  | more hnext h h' =>
    cases hgap.unique hnext
    exact .many h h'

theorem Parses.distribute (h : Parses whole spaced (.seq e (.choice e' e'')) cs outcome) :
    Parses whole spaced (.choice (.seq e e') (.seq e e'')) cs outcome := by
  cases h with
  | seq h hgap h' =>
    cases h' with
    | choice h' => exact .choice (.seq h hgap h')
    | choiceOther hfails h' => exact .choiceOther (.seqFailsBehind h hgap hfails) (.seq h hgap h')
  | seqFails h => exact .choiceOther (.seqFails h) (.seqFails h)
  | seqFailsBehind h hgap h' =>
    cases h' with
    | choiceOther hfails h' =>
      exact .choiceOther (.seqFailsBehind h hgap hfails) (.seqFailsBehind h hgap h')

/-! ### Classes of characters -/

/-- An expression takes one character of a class. -/
structure IsClass (whole : List Char) (spaced : Bool) (p : Char → Bool) (e : Peg) : Prop where
  takes : ∀ c rest, p c = true → Parses whole spaced e (c :: rest) (some ([], rest))
  fails : ∀ cs, (∀ c ∈ cs.head?, p c = false) → Parses whole spaced e cs none

theorem isClass_one : IsClass whole spaced p (.one p) := ⟨fun _ _ => .one, fun _ => .oneFails⟩

theorem isClass_text {sign : Char} : IsClass whole spaced (· == sign) (.text [sign]) where
  takes c rest h := by
    obtain rfl := eq_of_beq h
    exact .text rfl
  fails cs h := .textFails fun ⟨rest, he⟩ => by simp [← he] at h

theorem IsClass.choice (h : IsClass whole spaced p e) (h' : IsClass whole spaced q e') :
    IsClass whole spaced (fun c => p c || q c) (.choice e e') where
  takes c rest hc := by
    by_cases hp : p c = true
    · exact .choice (h.takes c rest hp)
    · exact .choiceOther (h.fails _ (by simpa using hp)) (h'.takes c rest (by simpa [hp] using hc))
  fails cs hc := by
    simp only [Bool.or_eq_false_iff] at hc
    exact .choiceOther (h.fails cs fun c hm => (hc c hm).1) (h'.fails cs fun c hm => (hc c hm).2)

theorem IsClass.parses_many (h : IsClass whole false p e) (cs : List Char) :
    Parses whole false (.many e) cs (some ([], cs.dropWhile p)) := by
  refine Parses.many_of_more ?_
  induction cs with
  | nil => exact .moreNone (.text rfl) (h.fails [] (by simp))
  | cons c cs ih =>
    by_cases hc : p c = true
    · rw [List.dropWhile_cons_of_pos hc]
      exact .more (.text rfl) (h.takes c cs hc) ih
    · rw [List.dropWhile_cons_of_neg hc]
      exact .moreNone (.text rfl) (h.fails _ (by simpa using hc))

theorem isClass_wordChar : IsClass whole spaced Token.isWordChar wordChar := by
  have hclass : Token.isWordChar = fun c => c.isAlphanum || (c == '_' || c == '.') :=
    funext fun c => by rw [Token.isWordChar, Bool.or_assoc]
  rw [hclass]
  exact isClass_one.choice (isClass_text.choice isClass_text)

theorem isClass_whitespace : IsClass whole spaced Token.isBlank whitespace := by
  have hclass : Token.isBlank = fun c => c == ' ' || (c == '\t' || (c == '\r' || c == '\n')) :=
    funext fun c => by simp only [Token.isBlank, Bool.or_assoc]
  rw [hclass]
  exact isClass_text.choice (isClass_text.choice (isClass_text.choice isClass_text))

end FactGraph.Peg
