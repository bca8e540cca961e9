import FactGraph.Proofs.Grammar.Settled

/-! # Readers of tokens and expressions over characters

The readers of tokens do what the parsing expressions do with the characters. At a settled place a
reader follows an expression: both fail, or the reader reads what the nodes stand for and leaves the
tokens of the characters that the expression leaves. Layout may have been passed over in between,
and an equals sign may have been cut off from an arrow.

A reader is compared where few tokens are left, and takes some of them, since blocks are read to a
given depth.

* `Parser.Follows.bind`, `Parser.Follows.orElse`, `Parser.Follows.many`, `Parser.Follows.rule`: the
  combinators.
* `Parser.follows_equals`, `Parser.follows_existsSign`, `Parser.follows_identifier`: what is no
  token of its own for the grammar. -/

namespace FactGraph

open Token (ofText Settled)
open Peg (Parses)

namespace Parser

/-! ### Combinators -/

/-- At a settled place with less than `bound` tokens behind it, a reader and an expression both
fail, or they both take something, which is at least `taken` tokens. -/
def Follows {α : Type} (whole : List Char) (bound taken : Nat) (e : Peg)
    (W : α → List Node → Prop) (reader : Parser α) : Prop :=
  ∀ cs, Settled cs → (ofText cs).length < bound →
    (Fails reader (ofText cs) ∧ Parses whole true e cs none) ∨
    ∃ a nodes rest, Reads reader (ofText cs) a (ofText rest) ∧
      Parses whole true e cs (some (nodes, rest)) ∧ W a nodes ∧
      (ofText rest).length + taken ≤ (ofText cs).length

variable {whole : List Char} {α β : Type} {bound taken : Nat} {e e' : Peg}
  {W : α → List Node → Prop} {V : β → List Node → Prop} {reader first : Parser α}

namespace Follows

theorem mono {bound' taken' : Nat} (h : Follows whole bound taken e W reader)
    (hb : bound' ≤ bound) (ht : taken' ≤ taken) : Follows whole bound' taken' e W reader := by
  intro cs hcs hn
  rcases h cs hcs (by omega) with hf | ⟨a, nodes, rest, hr, hp, hw, hlength⟩
  · exact Or.inl hf
  · exact Or.inr ⟨a, nodes, rest, hr, hp, hw, by omega⟩

theorem map (h : Follows whole bound taken e W reader) {f : α → β}
    (hf : ∀ a nodes, W a nodes → V (f a) nodes) :
    Follows whole bound taken e V (reader >>= fun a => pure (f a)) := by
  intro cs hcs hn
  rcases h cs hcs hn with ⟨hfails, hp⟩ | ⟨a, nodes, rest, hr, hp, hw, hlength⟩
  · exact Or.inl ⟨fails_bind hfails, hp⟩
  · refine Or.inr ⟨f a, nodes, rest, reads_bind.mpr ⟨a, _, hr, ?_⟩, hp, hf a nodes hw, hlength⟩
    exact reads_pure.mpr ⟨rfl, rfl⟩

theorem weaken {W' : α → List Node → Prop} (h : Follows whole bound taken e W reader)
    (hw : ∀ a nodes, W a nodes → W' a nodes) : Follows whole bound taken e W' reader := by
  intro cs hcs hn
  rcases h cs hcs hn with hf | ⟨a, nodes, rest, hr, hp, hwa, hlength⟩
  · exact Or.inl hf
  · exact Or.inr ⟨a, nodes, rest, hr, hp, hw a nodes hwa, hlength⟩

/-- **Sequences.** The second part starts behind the layout that follows the first one. -/
theorem bind {taken' : Nat} {second : α → Parser β} (h : Follows whole bound taken e W first)
    (hs : ∀ a front, W a front → Follows whole (bound - taken) taken' e'
      (fun b behind => V b (front ++ behind)) (second a)) :
    Follows whole bound (taken + taken') (.seq e e') V (first >>= second) := by
  intro cs hcs hn
  rcases h cs hcs hn with ⟨hf, hp⟩ | ⟨a, front, middle, hr, hp, hw, hlength⟩
  · exact Or.inl ⟨fails_bind hf, .seqFails hp⟩
  obtain ⟨next, hgap, hnext, htokens⟩ := Peg.exists_settled whole middle
  rw [← htokens] at hr hlength
  rcases hs a front hw next hnext (by omega) with
    ⟨hf, hp'⟩ | ⟨b, behind, rest, hr', hp', hv, hlength'⟩
  · refine Or.inl ⟨fails_bind_iff.mpr fun a' middle' hr' => ?_, .seqFailsBehind hp hgap hp'⟩
    obtain ⟨rfl, rfl⟩ := reads_unique hr hr'
    exact hf
  · exact Or.inr ⟨b, front ++ behind, rest, reads_bind.mpr ⟨a, _, hr, hr'⟩, .seq hp hgap hp', hv,
      by omega⟩

/-- **Alternatives.** -/
theorem orElse {second : Parser α} (h : Follows whole bound taken e W first)
    (hs : Follows whole bound taken e' W second) :
    Follows whole bound taken (.choice e e') W (orElse first second) := by
  intro cs hcs hn
  rcases h cs hcs hn with ⟨hf, hp⟩ | ⟨a, nodes, rest, hr, hp, hw, hlength⟩
  · rcases hs cs hcs hn with ⟨hf', hp'⟩ | ⟨a, nodes, rest, hr, hp', hw, hlength⟩
    · exact Or.inl ⟨fails_orElse_iff.mpr ⟨hf, hf'⟩, .choiceOther hp hp'⟩
    · exact Or.inr ⟨a, nodes, rest, reads_orElse.mpr (Or.inr ⟨hf, hr⟩), .choiceOther hp hp', hw,
        hlength⟩
  · exact Or.inr ⟨a, nodes, rest, reads_orElse.mpr (Or.inl hr), .choice hp, hw, hlength⟩

theorem optional (h : Follows whole bound taken e W reader) :
    Follows whole bound 0 (Peg.optional e)
      (fun read nodes => read.elim (nodes = []) (W · nodes)) (optional reader) := by
  intro cs hcs hn
  rcases h cs hcs hn with ⟨hf, hp⟩ | ⟨a, nodes, rest, hr, hp, hw, hlength⟩
  · exact Or.inr ⟨none, [], cs, reads_optional_none hf, .choiceOther hp (.text rfl), rfl, le_rfl⟩
  · exact Or.inr ⟨some a, nodes, rest, reads_optional_some hr, .choice hp, hw, by omega⟩

theorem distribute {e'' : Peg} (h : Follows whole bound taken (.seq e (.choice e' e'')) W reader) :
    Follows whole bound taken (.choice (.seq e e') (.seq e e'')) W reader := by
  intro cs hcs hn
  rcases h cs hcs hn with ⟨hf, hp⟩ | ⟨a, nodes, rest, hr, hp, hw, hlength⟩
  · exact Or.inl ⟨hf, hp.distribute⟩
  · exact Or.inr ⟨a, nodes, rest, hr, hp.distribute, hw, hlength⟩

theorem more {Ws : List α → List Node → Prop} (h : Follows whole bound 1 e W reader)
    (hnil : Ws [] [])
    (hcons : ∀ a as front behind, W a front → Ws as behind → Ws (a :: as) (front ++ behind))
    (cs : List Char) (hn : (ofText cs).length < bound) :
    ∃ as nodes rest, ReadsEach reader (ofText cs) as (ofText rest) ∧
      Parses whole true (.more e) cs (some (nodes, rest)) ∧ Ws as nodes ∧
      (ofText rest).length ≤ (ofText cs).length := by
  induction hk : (ofText cs).length using Nat.strong_induction_on generalizing cs with
  | h k ih =>
    obtain ⟨next, hgap, hnext, htokens⟩ := Peg.exists_settled whole cs
    rcases h next hnext (by rwa [htokens]) with
      ⟨hf, hp⟩ | ⟨a, front, middle, hr, hp, hw, hlength⟩
    · rw [htokens] at hf
      exact ⟨[], [], cs, .done hf, .moreNone hgap hp, hnil, hk.le⟩
    · rw [htokens] at hr hlength
      obtain ⟨as, behind, rest, hrs, hps, hws, hlengths⟩ := ih _ (by omega) middle (by omega) rfl
      exact ⟨a :: as, front ++ behind, rest, .more hr (by omega) hrs, .more hgap hp hps,
        hcons a as front behind hw hws, by omega⟩

/-- **Repetitions.** An element takes at least a token. -/
theorem many {Ws : List α → List Node → Prop} (h : Follows whole bound 1 e W reader)
    (hnil : Ws [] [])
    (hcons : ∀ a as front behind, W a front → Ws as behind → Ws (a :: as) (front ++ behind)) :
    Follows whole bound 0 (.many e) Ws (many reader) := by
  intro cs hcs hn
  rcases h cs hcs hn with ⟨hf, hp⟩ | ⟨a, front, middle, hr, hp, hw, hlength⟩
  · exact Or.inr ⟨[], [], cs, (ReadsEach.done hf).reads_many, .manyNone hp, hnil, le_rfl⟩
  · obtain ⟨as, behind, rest, hrs, hps, hws, hlengths⟩ := h.more hnil hcons middle (by omega)
    exact Or.inr ⟨a :: as, front ++ behind, rest, (ReadsEach.more hr (by omega) hrs).reads_many,
      .many hp hps, hcons a as front behind hw hws, by omega⟩

end Follows

/-- The nodes are one node that stands for something. -/
def Single (f : Node → Option α) (a : α) (nodes : List Node) : Prop :=
  ∃ node, nodes = [node] ∧ f node = some a

/-- The nodes are one node of a rule that stands for something. -/
def Stands (name : GrammarRule) (f : Node → Option α) (a : α) (nodes : List Node) : Prop :=
  ∃ node, nodes = [node] ∧ node.rule = name ∧ f node = some a

theorem Stands.single {name : GrammarRule} {f : Node → Option α} {a : α} {nodes : List Node}
    (h : Stands name f a nodes) : Single f a nodes :=
  let ⟨node, hn, _, hf⟩ := h
  ⟨node, hn, hf⟩

theorem Follows.single {name : GrammarRule} {f : Node → Option α}
    (h : Follows whole bound taken e (Stands name f) reader) :
    Follows whole bound taken e (Single f) reader :=
  h.weaken fun _ _ => Stands.single

/-- **Rules** leave a node. -/
theorem Follows.rule {name : GrammarRule} {f : Node → Option α}
    (h : Follows whole bound taken (Peg.expression name)
      (fun a inner => ∀ left chars, f ⟨name, left, chars, inner⟩ = some a) reader) :
    Follows whole bound taken (.rule name) (Stands name f) (Parser.rule name reader) := by
  intro cs hcs hn
  rcases h cs hcs hn with ⟨hf, hp⟩ | ⟨a, nodes, rest, hr, hp, hw, hlength⟩
  · exact Or.inl ⟨fails_rule.mpr hf, .ruleFails hp⟩
  · exact Or.inr ⟨a, _, rest, reads_rule.mpr hr, .rule hp, ⟨_, rfl, rfl, hw _ _⟩, hlength⟩

/-! ### Signs and words -/

theorem follows_token {t : Token}
    (ht : ∀ rest, ∃ left, ofText (t.chars ++ rest) = ⟨t, left⟩ :: ofText rest) :
    Follows whole bound 1 (.text t.chars) (fun _ nodes => nodes = []) (token t) := by
  intro cs hcs _
  by_cases hp : t.chars <+: cs
  · obtain ⟨rest, rfl⟩ := hp
    obtain ⟨left, htokens⟩ := ht rest
    exact Or.inr ⟨(), [], rest, reads_token.mpr ⟨left, htokens⟩, .text rfl, rfl, by simp [htokens]⟩
  · exact Or.inl ⟨fails_token (Token.nextNot_of_settled hcs hp), .textFails hp⟩

theorem follows_sign {c : Char} (h : Token.isSign c = true) :
    Follows whole bound 1 (.text [c]) (fun _ nodes => nodes = []) (sign c) :=
  follows_token (t := .char c) fun _ => ⟨_, Token.ofText_sign h⟩

theorem follows_arrow :
    Follows whole bound 1 (.text ['-', '>']) (fun _ nodes => nodes = []) (token .arrow) :=
  follows_token (t := .arrow) fun _ => ⟨_, Token.ofText_arrow⟩

theorem follows_yields :
    Follows whole bound 1 (.text ['=', '>']) (fun _ nodes => nodes = []) (token .yields) :=
  follows_token (t := .yields) fun _ => ⟨_, Token.ofText_yields⟩

/-- **An equals sign** is one wherever it stands, even at the start of an arrow. -/
theorem follows_equals :
    Follows whole bound 0 (.text ['=']) (fun _ nodes => nodes = []) equals := by
  intro cs hcs _
  by_cases hp : ['='] <+: cs
  · obtain ⟨rest, rfl⟩ := hp
    suffices h : Reads equals (ofText ('=' :: rest)) () (ofText rest) ∧
        (ofText rest).length ≤ (ofText ('=' :: rest)).length from
      Or.inr ⟨(), [], rest, h.1, .text rfl, rfl, h.2⟩
    rcases rest with _ | ⟨c, rest⟩
    · exact ⟨rfl, Nat.zero_le _⟩
    by_cases hc : c = '>'
    · -- half an arrow is left, which is a token of its own
      subst hc
      rw [Token.ofText_yields, Token.ofText_sign (by decide)]
      exact ⟨rfl, le_rfl⟩
    · rw [Token.ofText_equals hc]
      exact ⟨rfl, Nat.le_succ _⟩
  · have hequals := Token.nextNot_of_settled hcs (t := .char '=') hp
    have hyields := Token.nextNot_of_settled hcs (t := .yields)
      fun ⟨rest, h⟩ => hp ⟨'>' :: rest, h⟩
    refine Or.inl ⟨fails_equals fun l hl => ?_, .textFails hp⟩
    have h := hequals l hl
    have h' := hyields l hl
    simp only [List.mem_singleton] at h h'
    simp [h, h']

theorem fails_existsSign {tokens : List Lexeme} (h : NextNot [.word "E"] tokens) :
    Fails existsSign tokens := by
  unfold Fails existsSign
  split
  · simp at h
  · rfl

theorem existsSign_fails {rest next : List Char}
    (hgap : Parses whole false (Peg.gap true) rest (some ([], next))) (h : ¬ Token.EndsWord next) :
    Parses whole true Peg.existsSign ('E' :: rest) none := by
  rcases next with _ | ⟨c, next⟩
  · exact absurd Token.endsWord_nil h
  · have hc : Token.isWordChar c = true := by simpa using h
    exact .seqFailsBehind (.text rfl) hgap (.notFails (Peg.isClass_wordChar.takes c next hc))

/-- **The sign of an existential condition** may be the start of a word for the expression, but then
the word goes on. -/
theorem follows_existsSign :
    Follows whole bound 1 Peg.existsSign (fun _ nodes => nodes = []) existsSign := by
  intro cs hcs _
  by_cases hp : ['E'] <+: cs
  swap
  · exact Or.inl ⟨fails_existsSign (Token.nextNot_of_settled hcs hp), .seqFails (.textFails hp)⟩
  obtain ⟨rest, rfl⟩ := hp
  by_cases hends : Token.EndsWord rest
  · obtain ⟨next, hgap, hnext, hsame⟩ := Peg.exists_settled whole rest
    have htokens : ofText ('E' :: rest) = ⟨.word "E", _⟩ :: ofText next :=
      (Token.ofText_letter (by decide) hends).trans (by rw [hsame])
    rw [List.singleton_append, htokens]
    by_cases hbehind : Token.EndsWord next
    · have hcontinues := (Token.continuesWord_of_settled hnext).mpr hbehind
      exact Or.inr ⟨(), [], next, reads_existsSign hcontinues,
        .seq (.text rfl) hgap (.not (Peg.isClass_wordChar.fails next hbehind)), rfl, le_rfl⟩
    · have hcontinues := (Token.continuesWord_of_settled hnext).not.mpr hbehind
      exact Or.inl ⟨by simp [Fails, existsSign, hcontinues, fail], existsSign_fails hgap hbehind⟩
  · rcases rest with _ | ⟨c, rest⟩
    · exact absurd Token.endsWord_nil hends
    have hc : Token.isWordChar c = true := by simpa using hends
    have hgap : Parses whole false (Peg.gap true) (c :: rest) (some ([], c :: rest)) :=
      Peg.gap_of_settled (Token.settled_of_isWordChar hc)
    refine Or.inl ⟨fails_existsSign ?_, existsSign_fails hgap hends⟩
    rw [List.singleton_append, Token.ofText_word (by decide), nextNot_cons, List.mem_singleton,
      List.takeWhile_cons_of_pos hc]
    intro he
    simpa using congrArg String.toList (Token.word.inj he)

theorem isClass_wordStart : Peg.IsClass whole false Token.isWordStart
    (.choice (.one Char.isAlpha) (.text ['_'])) :=
  Peg.isClass_one.choice Peg.isClass_text

theorem parses_identifier {name : String} {rest : List Char} (hw : Token.isWord name = true)
    (hr : Token.EndsWord rest) :
    Parses whole true (.rule .identifier) (name.toList ++ rest)
      (some ([⟨.identifier, (name.toList ++ rest).length, name.toList, []⟩], rest)) := by
  have htake : (name.toList ++ rest).take ((name.toList ++ rest).length - rest.length) =
      name.toList := by
    rw [List.length_append, Nat.add_sub_cancel, List.take_left]
  have hchars : Parses whole true (Peg.expression .identifier) (name.toList ++ rest)
      (some ([], rest)) := by
    obtain ⟨c, tail, hname, hc, htail⟩ := Token.exists_of_isWord hw
    have hmany : Parses whole false (.many Peg.wordChar) (tail ++ rest) _ :=
      Peg.isClass_wordChar.parses_many _
    rw [Token.dropWhile_append_of_all htail hr] at hmany
    rw [hname]
    exact .atomic (.seq (isClass_wordStart.takes c _ hc) (.text rfl) hmany)
  have hrule : Parses whole true (.rule .identifier) _ _ := .rule hchars
  rwa [htake] at hrule

/-- **An identifier** is a word. -/
theorem follows_identifier :
    Follows whole bound 1 (.rule .identifier) (fun name nodes => ∃ node, nodes = [node] ∧
      node.name = name) identifier := by
  intro cs hcs _
  rcases Token.ofText_settled hcs with
    rfl | ⟨t, rest, rfl, htokens, ⟨name, rfl, hw, hr⟩ | ⟨hn, hhead⟩⟩
  · exact Or.inl ⟨rfl, .ruleFails (.atomic (.seqFails (isClass_wordStart.fails [] (by simp))))⟩
  · exact Or.inr ⟨name, _, rest, reads_identifier.mpr ⟨_, htokens⟩, parses_identifier hw hr,
      ⟨_, rfl, String.ofList_toList⟩, by simp [htokens]⟩
  · refine Or.inl ⟨fails_identifier ?_,
      .ruleFails (.atomic (.seqFails (isClass_wordStart.fails _ hhead)))⟩
    rw [htokens]
    rintro _ ⟨rfl⟩ name rfl
    cases hn

theorem follows_endOfText :
    Follows whole bound 0 (.rule .endOfInput) (Stands .endOfInput fun _ => some ())
      (rule .endOfInput endOfText) := by
  refine Follows.rule fun cs hcs _ => ?_
  rcases cs with _ | ⟨c, cs⟩
  · exact Or.inr ⟨(), [], [], rfl, .not (.oneFails (by simp)), fun _ _ => rfl, le_rfl⟩
  · obtain h | ⟨t, rest, -, htokens, -⟩ := Token.ofText_settled hcs
    · cases h
    · rw [htokens]
      exact Or.inl ⟨rfl, .notFails (.one rfl)⟩

end Parser

end FactGraph
