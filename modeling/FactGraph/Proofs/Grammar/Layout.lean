import FactGraph.Proofs.Grammar.Tokens
import Mathlib.Data.List.Chain

/-! # Layout

Blanks and comments may stand in front of a text, behind it and between any two of its tokens, and
something must stand between two words. A spelling of some tokens is a text that puts such layout
around them. Scanning finds the tokens again, since nothing that may stand behind a token goes on
with it: no word character behind a word, and no `>` behind an equals sign.

* `Token.read_layout`: layout leaves no trace.
* `Spelling.read_chars`: the tokens of a spelling are those that it spells. -/

namespace FactGraph

namespace Token

/-! ### Layout and tokens -/

/-- Characters that only separate tokens: blanks, and comments with the end of their line. -/
inductive IsLayout : List Char → Prop where
  | nil : IsLayout []
  | blank {c : Char} {run : List Char} (h : isBlank c = true) (others : IsLayout run) :
    IsLayout (c :: run)
  | comment {text run : List Char} {stop : Char} (inside : ∀ c ∈ text, isLineEnd c = false)
    (ends : isLineEnd stop = true) (others : IsLayout run) :
    IsLayout ('/' :: '/' :: (text ++ stop :: run))

/-- The characters of a token. -/
def chars : Token → List Char
  | word name => name.toList
  | arrow => ['-', '>']
  | yields => ['=', '>']
  | char c => [c]

/-- The characters that the language uses as tokens. -/
def signs : List Char := ['(', ')', '\x7b', '\x7d', '[', ']', ',', ':', '!', '=', '#']

/-- Whether a token is one of the language. -/
def isKnown : Token → Bool
  | word name => isWord name
  | arrow => true
  | yields => true
  | char c => signs.contains c

/-- Whether a token is a word. -/
def isName : Token → Bool
  | word _ => true
  | _ => false

variable {run rest : List Char}

theorem read_comment {text : List Char} {stop : Char} (hi : ∀ c ∈ text, isLineEnd c = false)
    (hs : isLineEnd stop = true) :
    read ('/' :: '/' :: (text ++ stop :: rest)) = read (stop :: rest) := by
  have hline : (text ++ stop :: rest).dropWhile (fun c => !isLineEnd c) = stop :: rest :=
    dropWhile_append_of_all (by simpa using hi) (by simp [hs])
  rw [read, ofText_comment, hline, read]

/-- **Layout leaves no trace.** -/
theorem read_layout (h : IsLayout run) : read (run ++ rest) = read rest := by
  induction h with
  | nil => rfl
  | blank hb _ ih => rw [List.cons_append, read_blank hb, ih]
  | @comment text run stop hi hs _ ih =>
    have hblank : isBlank stop = true := by
      simp only [isLineEnd, Bool.or_eq_true, beq_iff_eq] at hs
      rcases hs with rfl | rfl <;> decide
    have htext : '/' :: '/' :: (text ++ stop :: run) ++ rest =
        '/' :: '/' :: (text ++ stop :: (run ++ rest)) := by simp
    rw [htext, read_comment hi hs, read_blank hblank, ih]

/-! ### What stands behind a token -/

theorem head_layout (h : IsLayout run) : ∀ c ∈ run.head?, isWordChar c = false ∧ c ≠ '>' := by
  cases h with
  | nil => simp
  | @blank c run hb _ =>
    have hcases : c = ' ' ∨ c = '\t' ∨ c = '\r' ∨ c = '\n' := by
      simpa only [isBlank, Bool.or_eq_true, beq_iff_eq, or_assoc] using hb
    rcases hcases with rfl | rfl | rfl | rfl <;> simp <;> decide
  | comment _ _ _ =>
    simp
    decide

theorem exists_chars {t : Token} (h : t.isKnown = true) :
    ∃ c cs, t.chars = c :: cs ∧ c ≠ '>' ∧ (isWordChar c = true → t.isName = true) := by
  cases t with
  | word name =>
    obtain ⟨c, cs, hn, hc, -⟩ := exists_of_isWord h
    refine ⟨c, cs, hn, ?_, fun _ => rfl⟩
    rintro rfl
    exact absurd hc (by decide)
  | arrow => exact ⟨'-', ['>'], rfl, by decide, by decide⟩
  | yields => exact ⟨'=', ['>'], rfl, by decide, by decide⟩
  | char c =>
    have hsigns : (signs.all fun c => c ≠ '>' ∧ isWordChar c = false) = true := by decide
    obtain ⟨hne, hw⟩ := of_decide_eq_true (List.all_eq_true.mp hsigns c (List.contains_iff_mem.mp h))
    exact ⟨c, [], rfl, hne, by simp [hw]⟩

theorem read_equals_of_ne (h : ∀ c ∈ rest.head?, c ≠ '>') :
    read ('=' :: rest) = .char '=' :: read rest := by
  cases rest with
  | nil => rfl
  | cons c rest => exact read_equals (h c rfl)

/-- A token is read as it stands if what stands behind it does not go on with it. -/
theorem read_token {t : Token} (h : t.isKnown = true) (hw : t.isName = true → EndsWord rest)
    (he : ∀ c ∈ rest.head?, c ≠ '>') : read (t.chars ++ rest) = t :: read rest := by
  cases t with
  | word name => exact read_word h (hw rfl)
  | arrow => exact read_arrow
  | yields => exact read_yields
  | char c =>
    by_cases hc : c = '='
    · subst hc
      exact read_equals_of_ne he
    · have hsigns : (signs.all fun c => c ≠ '=' → isSign c = true) = true := by decide
      have hsign := of_decide_eq_true (List.all_eq_true.mp hsigns c (List.contains_iff_mem.mp h))
      exact read_sign (hsign hc)

end Token

/-! ### Spellings -/

/-- A text that spells out tokens: layout, and tokens of the language with layout behind each of
them, which is not empty between two words. -/
structure Spelling where
  lead : List Char
  pieces : List (Token × List Char)
  layout_lead : Token.IsLayout lead
  layout : ∀ piece ∈ pieces, Token.IsLayout piece.2
  known : ∀ piece ∈ pieces, piece.1.isKnown = true
  apart : pieces.IsChain fun a b => a.1.isName = true → b.1.isName = true → a.2 ≠ []

namespace Spelling

/-- The tokens that are spelled. -/
def tokens (spelling : Spelling) : List Token := spelling.pieces.map Prod.fst

/-- The characters of tokens and of the layout behind them. -/
def charsOf (pieces : List (Token × List Char)) : List Char :=
  pieces.flatMap fun piece => piece.1.chars ++ piece.2

def chars (spelling : Spelling) : List Char := spelling.lead ++ charsOf spelling.pieces

/-- The text in which the tokens are spelled. -/
def text (spelling : Spelling) : String := String.ofList spelling.chars

theorem head_charsOf {t : Token} {run : List Char} {others : List (Token × List Char)}
    (hl : Token.IsLayout run) (hk : ∀ piece ∈ others, piece.1.isKnown = true)
    (ha : ((t, run) :: others).IsChain fun a b =>
      a.1.isName = true → b.1.isName = true → a.2 ≠ []) :
    ∀ c ∈ (run ++ charsOf others).head?,
      (t.isName = true → Token.isWordChar c = false) ∧ c ≠ '>' := by
  rcases run with _ | ⟨d, run⟩
  · rcases others with _ | ⟨⟨t', run'⟩, others⟩
    · simp [charsOf]
    -- the next token stands right behind, so one of the two is no word
    · obtain ⟨c, cs, hc, hne, hname⟩ := Token.exists_chars (hk (t', run') (by simp))
      have happart := (List.isChain_cons_cons.mp ha).1
      simp only [charsOf, List.flatMap_cons, List.nil_append, hc, List.cons_append,
        List.head?_cons, Option.mem_def, Option.some.injEq]
      rintro _ rfl
      refine ⟨fun ht => ?_, hne⟩
      by_contra hw
      exact happart ht (hname (by simpa using hw)) rfl
  · intro c hc
    obtain ⟨hw, hne⟩ := Token.head_layout hl c hc
    exact ⟨fun _ => hw, hne⟩

theorem read_charsOf : ∀ {pieces : List (Token × List Char)},
    (∀ piece ∈ pieces, Token.IsLayout piece.2) → (∀ piece ∈ pieces, piece.1.isKnown = true) →
    (pieces.IsChain fun a b => a.1.isName = true → b.1.isName = true → a.2 ≠ []) →
    Token.read (charsOf pieces) = pieces.map Prod.fst
  | [], _, _, _ => rfl
  | (t, run) :: others, hl, hk, ha => by
    obtain ⟨hlayout, hl⟩ := List.forall_mem_cons.mp hl
    obtain ⟨hknown, hk⟩ := List.forall_mem_cons.mp hk
    have hhead := head_charsOf hlayout hk ha
    have hrest : Token.read (charsOf others) = others.map Prod.fst :=
      read_charsOf hl hk ha.tail
    have htext : charsOf ((t, run) :: others) = t.chars ++ (run ++ charsOf others) := by
      simp [charsOf]
    rw [htext, Token.read_token hknown (fun hn c hc => (hhead c hc).1 hn)
      (fun c hc => (hhead c hc).2), Token.read_layout hlayout, hrest, List.map_cons]

/-- **The tokens of a spelling are those that it spells.** -/
theorem read_chars (spelling : Spelling) : Token.read spelling.chars = spelling.tokens := by
  rw [chars, Token.read_layout spelling.layout_lead]
  exact read_charsOf spelling.layout spelling.known spelling.apart

end Spelling

end FactGraph
