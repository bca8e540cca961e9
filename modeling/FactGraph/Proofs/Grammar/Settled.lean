import FactGraph.Proofs.Grammar.Layout
import FactGraph.Proofs.Grammar.Peg
import FactGraph.Proofs.Grammar.Repetition

/-! # Places where no layout stands

Behind layout a text is settled: neither a blank nor a comment stands next. At such a place the next
token starts with the next character, and the tokens behind it are those of the characters behind.
Passing over layout leads to such a place and leaves the tokens as they are.

* `Token.ofText_settled`: the next token of a settled text.
* `Peg.exists_settled`: passing over layout. -/

namespace FactGraph

namespace Token

variable {c : Char} {cs : List Char}

theorem ofText_dropWhile_blank : ofText (cs.dropWhile isBlank) = ofText cs := by
  induction cs with
  | nil => rfl
  | cons c cs ih =>
    by_cases hc : isBlank c = true
    · rw [List.dropWhile_cons_of_pos hc, ih, ofText_blank hc]
    · rw [List.dropWhile_cons_of_neg hc]

theorem head?_dropWhile (p : Char → Bool) : ∀ c ∈ (cs.dropWhile p).head?, p c = false := by
  intro c hc
  have hhead := List.head?_dropWhile_not p cs
  rw [Option.mem_def.mp hc] at hhead
  exact hhead

/-! ### The next token -/

/-- Neither a blank nor a comment stands next. -/
structure Settled (cs : List Char) : Prop where
  not_blank : ∀ c ∈ cs.head?, isBlank c = false
  not_comment : ¬ ['/', '/'] <+: cs

/-- **The next token of a settled text** starts with its next character. -/
theorem ofText_settled (h : Settled cs) : cs = [] ∨ ∃ t rest, cs = t.chars ++ rest ∧
    ofText cs = ⟨t, cs.length⟩ :: ofText rest ∧
    ((∃ name, t = word name ∧ isWord name = true ∧ EndsWord rest) ∨
      t.isName = false ∧ ∀ c ∈ cs.head?, isWordStart c = false) := by
  rcases cs with _ | ⟨c, cs⟩
  · exact Or.inl rfl
  refine Or.inr ?_
  by_cases hw : isWordStart c = true
  · refine ⟨word (String.ofList (c :: cs.takeWhile isWordChar)), cs.dropWhile isWordChar, ?_,
      ofText_word hw, Or.inl ⟨_, rfl, ?_, ?_⟩⟩
    · rw [chars, String.toList_ofList, List.cons_append, List.takeWhile_append_dropWhile]
    · rw [isWord_ofList, hw, List.all_takeWhile, Bool.true_and]
    · exact head?_dropWhile isWordChar
  have hhead : ∀ d ∈ (c :: cs).head?, isWordStart d = false := by simpa using hw
  by_cases ha : c = '-' ∧ cs.head? = some '>'
  · obtain ⟨rfl, hs⟩ := ha
    obtain ⟨cs, rfl⟩ := List.head?_eq_some_iff.mp hs
    exact ⟨arrow, cs, rfl, ofText_arrow, Or.inr ⟨rfl, hhead⟩⟩
  by_cases hy : c = '=' ∧ cs.head? = some '>'
  · obtain ⟨rfl, hs⟩ := hy
    obtain ⟨cs, rfl⟩ := List.head?_eq_some_iff.mp hs
    exact ⟨yields, cs, rfl, ofText_yields, Or.inr ⟨rfl, hhead⟩⟩
  have hcomment : ¬ (c = '/' ∧ cs.head? = some '/') := by
    rintro ⟨rfl, hs⟩
    obtain ⟨cs, rfl⟩ := List.head?_eq_some_iff.mp hs
    exact h.not_comment ⟨cs, rfl⟩
  refine ⟨char c, cs, rfl, ?_, Or.inr ⟨rfl, hhead⟩⟩
  rw [ofText, scan, if_neg (by simp [h.not_blank c rfl]), if_neg hw, if_neg hcomment, if_neg ha,
    if_neg hy]
  rfl

theorem ofText_letter (h : isWordStart c = true) (hr : EndsWord cs) :
    ofText (c :: cs) = ⟨word (String.ofList [c]), (c :: cs).length⟩ :: ofText cs := by
  rw [ofText_word h]
  rcases cs with _ | ⟨d, cs⟩
  · rfl
  · have hd : ¬ isWordChar d = true := by simpa using hr
    rw [List.takeWhile_cons_of_neg hd, List.dropWhile_cons_of_neg hd]

theorem nextNot_of_settled (h : Settled cs) {t : Token} (ht : ¬ t.chars <+: cs) :
    Parser.NextNot [t] (ofText cs) := by
  rcases ofText_settled h with rfl | ⟨t', rest, rfl, htokens, -⟩
  · exact Parser.nextNot_nil
  · rw [htokens, Parser.nextNot_cons, List.mem_singleton]
    rintro rfl
    exact ht ⟨rest, rfl⟩

theorem place_of_settled (h : Settled cs) : Parser.place (ofText cs) = cs.length := by
  rcases ofText_settled h with rfl | ⟨t, rest, -, htokens, -⟩
  · rfl
  · rw [htokens]
    rfl

theorem isWordChar_of_isWordStart (h : isWordStart c = true) : isWordChar c = true := by
  simp only [isWordStart, isWordChar, Char.isAlphanum, Bool.or_eq_true] at h ⊢
  tauto

theorem settled_of_isWordChar (h : isWordChar c = true) : Settled (c :: cs) where
  not_blank := by
    rintro _ ⟨rfl⟩
    by_contra hb
    simp only [isBlank, Bool.not_eq_false, Bool.or_eq_true, beq_iff_eq] at hb
    rcases hb with ((rfl | rfl) | rfl) | rfl <;> exact absurd h (by decide)
  not_comment := by
    rintro ⟨rest, he⟩
    cases he
    exact absurd h (by decide)

theorem continuesWord_of_settled (h : Settled cs) :
    Parser.continuesWord (ofText cs) = false ↔ EndsWord cs := by
  rcases ofText_settled h with
    rfl | ⟨t, rest, rfl, htokens, ⟨name, rfl, hw, -⟩ | ⟨hn, -⟩⟩
  · simp [ofText, scan, Parser.continuesWord]
  · rw [htokens, chars]
    obtain ⟨c, tail, hname, hc, -⟩ := exists_of_isWord hw
    simp [hname, Parser.continuesWord, isWordChar_of_isWordStart hc]
  · rw [htokens]
    cases t with
    | word name => cases hn
    | arrow => exact iff_of_true rfl (endsWord_cons.mpr (by decide))
    | yields => exact iff_of_true rfl (endsWord_cons.mpr (by decide))
    | char c => exact endsWord_cons.symm

end Token

namespace Peg

variable {whole cs rest : List Char}

/-! ### Layout -/

theorem newline_fails (h : ∀ c ∈ cs.head?, Token.isLineEnd c = false) :
    Parses whole false newline cs none := by
  have hfails : ∀ {c : Char} {others : List Char}, Token.isLineEnd c = true →
      Parses whole false (.text (c :: others)) cs none := fun hc =>
    .textFails fun ⟨rest, he⟩ => by simp [← he, hc] at h
  exact .choiceOther (hfails (by decide)) (.choiceOther (hfails (by decide)) (hfails (by decide)))

theorem newline_takes {c : Char} (rest : List Char) (h : Token.isLineEnd c = true) :
    ∃ behind, Parses whole false newline (c :: rest) (some ([], behind)) := by
  simp only [Token.isLineEnd, Bool.or_eq_true, beq_iff_eq] at h
  rcases h with rfl | rfl
  · exact ⟨rest, .choice (.text rfl)⟩
  · by_cases hrest : ['\r', '\n'] <+: '\r' :: rest
    · obtain ⟨behind, hb⟩ := hrest
      exact ⟨behind, .choiceOther (.textFails (by simp)) (.choice (.text hb.symm))⟩
    · exact ⟨rest, .choiceOther (.textFails (by simp))
        (.choiceOther (.textFails hrest) (.text rfl))⟩

theorem isClass_inComment :
    IsClass whole false (fun c => !Token.isLineEnd c) (.seq (.not newline) anyChar) where
  takes c rest h := .seq (.not (newline_fails (by simpa using h))) (.text rfl) (.one rfl)
  fails cs h := by
    rcases cs with _ | ⟨c, cs⟩
    · exact .seqFailsBehind (.not (newline_fails (by simp))) (.text rfl) (.oneFails (by simp))
    · obtain ⟨behind, hb⟩ := newline_takes cs (by simpa using h)
      exact .seqFails (.notFails hb)

theorem comment_takes : Parses whole false comment ('/' :: '/' :: rest)
    (some ([], rest.dropWhile fun c => !Token.isLineEnd c)) :=
  .seq (.text rfl) (.text rfl) (isClass_inComment.parses_many rest)

theorem exists_settled_comments (whole cs : List Char)
    (hb : ∀ c ∈ cs.head?, Token.isBlank c = false) :
    ∃ next, Parses whole false (.more (.seq comment (.many whitespace))) cs (some ([], next)) ∧
      Token.Settled next ∧ Token.ofText next = Token.ofText cs := by
  induction hn : cs.length using Nat.strong_induction_on generalizing cs with
  | h n ih =>
    by_cases hcomment : ['/', '/'] <+: cs
    · obtain ⟨rest, rfl⟩ := hcomment
      set line := rest.dropWhile fun c => !Token.isLineEnd c with hline
      have hshorter : (line.dropWhile Token.isBlank).length ≤ rest.length :=
        (List.dropWhile_suffix _).length_le.trans (List.dropWhile_suffix _).length_le
      have hcomment : Parses whole false (.seq comment (.many whitespace)) ('/' :: '/' :: rest)
          (some ([], line.dropWhile Token.isBlank)) :=
        .seq comment_takes (.text rfl) (isClass_whitespace.parses_many line)
      obtain ⟨next, hnext, hsettled, htokens⟩ := ih (line.dropWhile Token.isBlank).length
        (by simp at hn; omega) _ (Token.head?_dropWhile Token.isBlank) rfl
      refine ⟨next, .more (.text rfl) hcomment hnext, hsettled, ?_⟩
      rw [htokens, Token.ofText_dropWhile_blank, hline]
      exact Token.ofText_comment.symm
    · exact ⟨cs, .moreNone (.text rfl) (.seqFails (.seqFails (.textFails hcomment))),
        ⟨hb, hcomment⟩, rfl⟩

/-- **Passing over layout** leads to a place where none stands and leaves the tokens. -/
theorem exists_settled (whole cs : List Char) : ∃ next,
    Parses whole false (gap true) cs (some ([], next)) ∧ Token.Settled next ∧
      Token.ofText next = Token.ofText cs := by
  obtain ⟨next, hnext, hsettled, htokens⟩ :=
    exists_settled_comments whole (cs.dropWhile Token.isBlank) (Token.head?_dropWhile Token.isBlank)
  refine ⟨next, ?_, hsettled, htokens.trans Token.ofText_dropWhile_blank⟩
  exact .seq (isClass_whitespace.parses_many cs) (.text rfl) hnext.many_of_more

theorem gap_of_settled (h : Token.Settled cs) :
    Parses whole false (gap true) cs (some ([], cs)) := by
  have hblanks : Parses whole false (.many whitespace) cs (some ([], cs)) :=
    .manyNone (isClass_whitespace.fails cs h.not_blank)
  have hcomments : Parses whole false (.many (.seq comment (.many whitespace))) cs
      (some ([], cs)) :=
    .manyNone (.seqFails (.seqFails (.textFails h.not_comment)))
  exact .seq hblanks (.text rfl) hcomments

end Peg

end FactGraph
