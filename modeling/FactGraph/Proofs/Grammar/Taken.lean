import FactGraph.Proofs.Except
import FactGraph.Proofs.Grammar.Yields

/-! # The tokens that readers take

A reader consumes tokens from the start of a list, and what it reads is told by the tokens that it
has consumed: by the tokens alone, or by their places as well.

* `Parser.Consumes.bind`, `Parser.Consumes.many`: the tokens that combined readers consume.
* `Parser.Takes.bind`, `Parser.Takes.many`: where places do not matter.
* `Parser.takes_label`, `Parser.takes_side`: labels and paths. -/

namespace FactGraph

/-- Tokens are those of some elements, one after the other. -/
def EachSpelledBy {α : Type} (S : α → List Token → Prop) : List α → List Token → Prop
  | [], tokens => tokens = []
  | a :: as, tokens => ∃ first others, S a first ∧ EachSpelledBy S as others ∧
    tokens = first ++ others

theorem EachSpelledBy.eq_flatMap {α : Type} {spell : α → List Token} :
    ∀ {as : List α} {tokens : List Token},
      EachSpelledBy (fun a tokens => tokens = spell a) as tokens → tokens = as.flatMap spell
  | [], _, h => h
  | a :: as, _, h => by
    obtain ⟨_, _, rfl, ho, rfl⟩ := h
    rw [ho.eq_flatMap, List.flatMap_cons]

namespace Tree

/-- The tokens of a scalar. -/
def Scalar.tokens : Scalar → List Token
  | hash label => [.char '#', .word label]
  | reference path => [.word path]

end Tree

/-! ### Combinators -/

namespace Parser

variable {α β : Type} {W : α → List Lexeme → Prop} {V : β → List Lexeme → Prop}

/-- What a reader reads is told by the tokens that it consumes, with their places. -/
def Consumes (W : α → List Lexeme → Prop) (reader : Parser α) : Prop :=
  ∀ tokens a rest, Reads reader tokens a rest → ∃ front, tokens = front ++ rest ∧ W a front

theorem consumes_pure {a : α} (h : W a []) : Consumes W (pure a) := by
  intro tokens b rest hr
  obtain ⟨rfl, rfl⟩ := reads_pure.mp hr
  exact ⟨[], rfl, h⟩

theorem Consumes.mono {W' : α → List Lexeme → Prop} {reader : Parser α} (h : Consumes W reader)
    (hw : ∀ a front, W a front → W' a front) : Consumes W' reader := by
  intro tokens a rest hr
  obtain ⟨front, rfl, ha⟩ := h _ _ _ hr
  exact ⟨front, rfl, hw _ _ ha⟩

theorem Consumes.bind {first : Parser α} {second : α → Parser β} (h : Consumes W first)
    (hs : ∀ a front, W a front → Consumes (fun b behind => V b (front ++ behind)) (second a)) :
    Consumes V (first >>= second) := by
  intro tokens b rest hr
  obtain ⟨a, middle, ha, hb⟩ := reads_bind.mp hr
  obtain ⟨front, rfl, hfront⟩ := h _ _ _ ha
  obtain ⟨behind, rfl, hbehind⟩ := hs a _ hfront _ _ _ hb
  exact ⟨front ++ behind, by rw [List.append_assoc], hbehind⟩

theorem Consumes.orElse {first second : Parser α} (h : Consumes W first) (hs : Consumes W second) :
    Consumes W (orElse first second) := by
  intro tokens a rest hr
  rcases reads_orElse.mp hr with hr | ⟨-, hr⟩
  · exact h _ _ _ hr
  · exact hs _ _ _ hr

theorem Consumes.rule {reader : Parser α} {name : GrammarRule} (h : Consumes W reader) :
    Consumes W (rule name reader) :=
  fun _ _ _ hr => h _ _ _ (reads_rule.mp hr)

theorem Consumes.many {Ws : List α → List Lexeme → Prop} {reader : Parser α}
    (h : Consumes W reader) (hnil : Ws [] [])
    (hcons : ∀ a as first others, W a first → Ws as others → Ws (a :: as) (first ++ others)) :
    Consumes Ws (many reader) := by
  have hcount : ∀ count, Consumes Ws (manyUpTo reader count) := by
    intro count
    induction count with
    | zero => exact consumes_pure hnil
    | succ count ih =>
      refine Consumes.orElse ?_ (consumes_pure hnil)
      refine h.bind fun a first ha => ih.bind fun as others has => consumes_pure ?_
      rw [List.append_nil]
      exact hcons a as first others ha has
  exact fun _ _ _ hr => hcount _ _ _ _ hr

/-! ### Readers of tokens -/

variable {S : α → List Token → Prop} {R : β → List Token → Prop}

/-- What a reader reads is told by the tokens that it takes. -/
def Takes (S : α → List Token → Prop) (reader : Parser α) : Prop :=
  ∀ tokens a rest, Reads reader tokens a rest →
    ∃ front, tokens = front ++ rest ∧ S a (front.map Lexeme.token)

theorem Takes.consumes {reader : Parser α} (h : Takes S reader) :
    Consumes (fun a front => S a (front.map Lexeme.token)) reader := h

theorem takes_pure {a : α} (h : S a []) : Takes S (pure a) := consumes_pure h

theorem Takes.mono {T : α → List Token → Prop} {reader : Parser α} (h : Takes S reader)
    (hs : ∀ a tokens, S a tokens → T a tokens) : Takes T reader :=
  h.consumes.mono fun a _ ha => hs a _ ha

theorem Takes.bind {first : Parser α} {second : α → Parser β} (h : Takes S first)
    (hs : ∀ a front, S a front → Takes (fun b behind => R b (front ++ behind)) (second a)) :
    Takes R (first >>= second) :=
  h.consumes.bind fun a front ha => (hs a _ ha).consumes.mono fun b behind hb => by
    rwa [List.map_append]

theorem Takes.orElse {first second : Parser α} (h : Takes S first) (hs : Takes S second) :
    Takes S (orElse first second) :=
  h.consumes.orElse hs.consumes

theorem Takes.rule {reader : Parser α} {name : GrammarRule} (h : Takes S reader) :
    Takes S (rule name reader) :=
  h.consumes.rule

theorem Takes.many {reader : Parser α} (h : Takes S reader) :
    Takes (EachSpelledBy S) (many reader) :=
  h.consumes.many rfl fun _ _ first others ha has =>
    ⟨first.map Lexeme.token, others.map Lexeme.token, ha, has, List.map_append⟩

/-! ### Single tokens -/

theorem takes_token (expected : Token) : Takes (fun _ tokens => tokens = [expected])
    (token expected) := by
  intro tokens u rest hr
  obtain ⟨left, rfl⟩ := reads_token.mp hr
  exact ⟨[⟨expected, left⟩], rfl, rfl⟩

theorem takes_sign (c : Char) : Takes (fun _ tokens => tokens = [.char c]) (sign c) :=
  takes_token _

theorem takes_identifier : Takes (fun name tokens => tokens = [.word name]) identifier := by
  intro tokens name rest hr
  obtain ⟨left, rfl⟩ := reads_identifier.mp hr
  exact ⟨[⟨.word name, left⟩], rfl, rfl⟩

theorem takes_existsSign : Takes (fun _ tokens => tokens = [.word "E"]) existsSign := by
  intro tokens u rest hr
  obtain ⟨left, rfl⟩ := eq_of_reads_existsSign hr
  exact ⟨[⟨.word "E", left⟩], rfl, rfl⟩

/-- An equals sign is a token of its own, unless it is the first half of an arrow. -/
theorem of_reads_equals {tokens rest : List Lexeme} {u : Unit} (h : Reads equals tokens u rest) :
    (∃ left, tokens = ⟨.char '=', left⟩ :: rest) ∨
      ∃ left others, rest = ⟨.char '>', left⟩ :: others := by
  unfold Reads equals at h
  split at h
  · cases h
    exact Or.inl ⟨_, rfl⟩
  · cases h
    exact Or.inr ⟨_, _, rfl⟩
  · cases h

/-! ### Labels and paths -/

theorem takes_label : Takes (fun label tokens => tokens = label.tokens) label := by
  refine Takes.rule (takes_identifier.bind fun name _ hn => (takes_sign _).bind fun _ _ hc => ?_)
  refine takes_identifier.bind fun type _ ht => takes_pure ?_
  subst hn hc ht
  rfl

theorem takes_role : Takes (fun role tokens => tokens = role.tokens) role := by
  refine Takes.rule ((takes_token _).bind fun _ _ ha => takes_identifier.bind fun name _ hn => ?_)
  refine (takes_sign _).bind fun _ _ hc => takes_identifier.bind fun target _ ht => takes_pure ?_
  subst ha hn hc ht
  rfl

theorem takes_side :
    Takes (fun side tokens => tokens = sideTokens side.label side.roles) side := by
  refine Takes.rule (takes_identifier.bind fun label _ hl => takes_role.many.bind fun roles _ hr =>
    takes_pure ?_)
  subst hl
  rw [hr.eq_flatMap, List.append_nil]
  rfl

/-! ### Scalars -/

theorem takes_scalar : Takes (fun value tokens => tokens = value.tokens) scalar := by
  refine Takes.orElse (Takes.rule ?_) (Takes.rule ?_)
  · refine (takes_sign _).bind fun _ _ hc => takes_identifier.bind fun label _ hl => takes_pure ?_
    subst hc hl
    rfl
  · refine takes_identifier.bind fun path _ hp => takes_pure ?_
    subst hp
    rfl

theorem fails_scalar_half {left : Nat} {others : List Lexeme} :
    Fails scalar (⟨.char '>', left⟩ :: others) :=
  fails_orElse_iff.mpr ⟨fails_rule.mpr (fails_bind (fails_sign (by simp))),
    fails_rule.mpr (fails_bind (fails_identifier (by simp [NextNoWord])))⟩

/-! ### The ends of texts and lists -/

theorem eq_nil_of_reads_endOfText {tokens rest : List Lexeme} {u : Unit}
    (h : Reads (rule .endOfInput endOfText) tokens u rest) : tokens = [] ∧ rest = [] := by
  have hread := reads_rule.mp h
  rcases tokens with _ | ⟨l, tokens⟩ <;> cases hread
  exact ⟨rfl, rfl⟩

theorem takes_moreLabels : Takes (fun others tokens => tokens = Label.moreTokens others)
    (many (sign ',' >>= fun _ => label)) := by
  have hmore : Takes (fun label tokens => tokens = .char ',' :: label.tokens)
      (sign ',' >>= fun _ => label) :=
    (takes_sign _).bind fun _ _ hc => by
      subst hc
      exact takes_label.mono fun label tokens hl => congrArg (Token.char ',' :: ·) hl
  exact hmore.many.mono fun others tokens ho => ho.eq_flatMap

end Parser

end FactGraph
