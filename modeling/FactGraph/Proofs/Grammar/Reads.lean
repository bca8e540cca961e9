import FactGraph.Specification.Grammar
import Mathlib.Tactic.Common

/-! # What readers read

The attempts of a reader have no influence on what it reads. `Parser.Reads` leaves them out: a reader
reads something from the start of the tokens and leaves the others. The equations below take the
combinators apart; `Parser.Keeps` is for what holds of all tokens, and so of everything that is read
from them. -/

namespace FactGraph.Parser

variable {α β : Type} {tokens rest : List Lexeme}

/-- A reader reads `a` from the start of the tokens and leaves the `rest`. -/
def Reads (reader : Parser α) (tokens : List Lexeme) (a : α) (rest : List Lexeme) : Prop :=
  (reader tokens).result = some (a, rest)

/-- A reader does not fit the tokens. -/
def Fails (reader : Parser α) (tokens : List Lexeme) : Prop := (reader tokens).result = none

/-! ### Combinators -/

@[simp]
theorem reads_pure {a b : α} : Reads (pure a) tokens b rest ↔ b = a ∧ rest = tokens := by
  show some (a, tokens) = some (b, rest) ↔ _
  simp [eq_comm]

@[simp]
theorem reads_succeed {a b : α} : Reads (succeed a) tokens b rest ↔ b = a ∧ rest = tokens :=
  reads_pure

@[simp]
theorem reads_bind {first : Parser α} {second : α → Parser β} {b : β} :
    Reads (first >>= second) tokens b rest ↔
      ∃ a middle, Reads first tokens a middle ∧ Reads (second a) middle b rest := by
  show (andThen first second tokens).result = _ ↔ _
  unfold andThen Reads
  rcases h : first tokens with ⟨attempts, _ | ⟨a, middle⟩⟩
  · simp
  · constructor
    · exact fun hb => ⟨a, middle, rfl, hb⟩
    · rintro ⟨_, _, he, hb⟩
      cases he
      exact hb

@[simp]
theorem reads_andThen {first : Parser α} {second : α → Parser β} {b : β} :
    Reads (andThen first second) tokens b rest ↔
      ∃ a middle, Reads first tokens a middle ∧ Reads (second a) middle b rest :=
  reads_bind

@[simp]
theorem reads_orElse {first second : Parser α} {a : α} :
    Reads (orElse first second) tokens a rest ↔
      Reads first tokens a rest ∨ Fails first tokens ∧ Reads second tokens a rest := by
  unfold orElse Reads Fails
  rcases h : first tokens with ⟨attempts, _ | ⟨b, middle⟩⟩ <;> simp [h]

@[simp]
theorem reads_ruleAt {left : Nat} {name : GrammarRule} {reader : Parser α} {a : α} :
    Reads (ruleAt left name reader) tokens a rest ↔ Reads reader tokens a rest := by
  unfold ruleAt Reads
  rcases h : reader tokens with ⟨attempts, _ | ⟨b, middle⟩⟩ <;> simp [h]

@[simp]
theorem reads_rule {name : GrammarRule} {reader : Parser α} {a : α} :
    Reads (rule name reader) tokens a rest ↔ Reads reader tokens a rest := reads_ruleAt

@[simp]
theorem fails_ruleAt {left : Nat} {name : GrammarRule} {reader : Parser α} :
    Fails (ruleAt left name reader) tokens ↔ Fails reader tokens := by
  unfold ruleAt Fails
  rcases h : reader tokens with ⟨attempts, _ | ⟨b, middle⟩⟩ <;> simp [h]

@[simp]
theorem fails_rule {name : GrammarRule} {reader : Parser α} :
    Fails (rule name reader) tokens ↔ Fails reader tokens := fails_ruleAt

theorem fails_bind {first : Parser α} {second : α → Parser β} (h : Fails first tokens) :
    Fails (first >>= second) tokens := by
  show (andThen first second tokens).result = none
  unfold Fails at h
  unfold andThen
  rcases hf : first tokens with ⟨attempts, _ | read⟩
  · rfl
  · simp [hf] at h

theorem reads_optional_none {reader : Parser α} (h : Fails reader tokens) :
    Reads (optional reader) tokens none tokens := by
  simp only [optional, reads_orElse]
  exact Or.inr ⟨fails_bind h, reads_succeed.mpr ⟨rfl, rfl⟩⟩

/-! ### Single tokens -/

@[simp]
theorem reads_token {expected : Token} {u : Unit} : Reads (token expected) tokens u rest ↔
    ∃ left, tokens = ⟨expected, left⟩ :: rest := by
  rcases tokens with _ | ⟨⟨t, left⟩, tokens⟩
  · simp [Reads, token, fail]
  · by_cases h : t = expected
    · subst h
      simp [Reads, token, succeed]
    · simp [Reads, token, fail, h]

@[simp]
theorem reads_sign {c : Char} {u : Unit} :
    Reads (sign c) tokens u rest ↔ ∃ left, tokens = ⟨.char c, left⟩ :: rest := reads_token

@[simp]
theorem reads_word {name : String} :
    Reads word tokens name rest ↔ ∃ left, tokens = ⟨.word name, left⟩ :: rest := by
  rcases tokens with _ | ⟨⟨t, left⟩, tokens⟩
  · simp [Reads, word, fail]
  · cases t <;> simp [Reads, word, fail, succeed, eq_comm]

@[simp]
theorem reads_identifier {name : String} :
    Reads identifier tokens name rest ↔ ∃ left, tokens = ⟨.word name, left⟩ :: rest :=
  reads_rule.trans reads_word

/-! ### What all tokens have in common -/

/-- From tokens that all satisfy `P` a reader reads only what satisfies `Q`, and it leaves only such
tokens. -/
def Keeps (P : Lexeme → Prop) (Q : α → Prop) (reader : Parser α) : Prop :=
  ∀ tokens a rest, (∀ l ∈ tokens, P l) → Reads reader tokens a rest → Q a ∧ ∀ l ∈ rest, P l

theorem keeps_pure {P : Lexeme → Prop} {Q : α → Prop} {a : α} (h : Q a) :
    Keeps P Q (pure a) := by
  intro tokens b rest ht hr
  obtain ⟨rfl, rfl⟩ := reads_pure.mp hr
  exact ⟨h, ht⟩

theorem keeps_token {P : Lexeme → Prop} (expected : Token) :
    Keeps P (fun _ => True) (token expected) := by
  intro tokens u rest ht hr
  obtain ⟨left, rfl⟩ := reads_token.mp hr
  exact ⟨trivial, fun l hl => ht l (List.mem_cons_of_mem _ hl)⟩

theorem Keeps.bind {P : Lexeme → Prop} {Q : α → Prop} {R : β → Prop} {first : Parser α}
    {second : α → Parser β} (h : Keeps P Q first) (hs : ∀ a, Q a → Keeps P R (second a)) :
    Keeps P R (first >>= second) := by
  intro tokens b rest ht hr
  obtain ⟨a, middle, ha, hb⟩ := reads_bind.mp hr
  obtain ⟨hq, hm⟩ := h _ _ _ ht ha
  exact hs a hq _ _ _ hm hb

theorem Keeps.orElse {P : Lexeme → Prop} {Q : α → Prop} {first second : Parser α}
    (h : Keeps P Q first) (hs : Keeps P Q second) : Keeps P Q (orElse first second) := by
  intro tokens a rest ht hr
  rcases reads_orElse.mp hr with hr | ⟨-, hr⟩
  · exact h _ _ _ ht hr
  · exact hs _ _ _ ht hr

theorem Keeps.ruleAt {P : Lexeme → Prop} {Q : α → Prop} {reader : Parser α} {left : Nat}
    {name : GrammarRule} (h : Keeps P Q reader) : Keeps P Q (ruleAt left name reader) :=
  fun _ _ _ ht hr => h _ _ _ ht (reads_ruleAt.mp hr)

theorem Keeps.rule {P : Lexeme → Prop} {Q : α → Prop} {reader : Parser α} {name : GrammarRule}
    (h : Keeps P Q reader) : Keeps P Q (rule name reader) :=
  fun _ _ _ ht hr => h _ _ _ ht (reads_rule.mp hr)

theorem Keeps.optional {P : Lexeme → Prop} {Q : α → Prop} {reader : Parser α}
    (h : Keeps P Q reader) : Keeps P (fun read => ∀ a ∈ read, Q a) (optional reader) := by
  have hsome : Keeps P (fun read => ∀ a ∈ read, Q a) (reader >>= fun a => pure (some a)) :=
    h.bind fun a ha => keeps_pure (by simpa using ha)
  exact hsome.orElse (keeps_pure (by simp))

theorem Keeps.manyUpTo {P : Lexeme → Prop} {Q : α → Prop} {reader : Parser α}
    (h : Keeps P Q reader) : ∀ count, Keeps P (fun as => ∀ a ∈ as, Q a) (manyUpTo reader count)
  | 0 => by
    intro tokens as rest ht hr
    obtain ⟨rfl, rfl⟩ := reads_succeed.mp hr
    exact ⟨by simp, ht⟩
  | count + 1 => by
    intro tokens as rest ht hr
    simp only [Parser.manyUpTo, reads_orElse, reads_andThen, reads_succeed] at hr
    rcases hr with ⟨a, middle, ha, as', middle', has, rfl, rfl⟩ | ⟨-, rfl, rfl⟩
    · obtain ⟨hq, hm⟩ := h _ _ _ ht ha
      obtain ⟨hqs, hr⟩ := Keeps.manyUpTo h count _ _ _ hm has
      exact ⟨by simpa using ⟨hq, hqs⟩, hr⟩
    · exact ⟨by simp, ht⟩

theorem Keeps.many {P : Lexeme → Prop} {Q : α → Prop} {reader : Parser α} (h : Keeps P Q reader) :
    Keeps P (fun as => ∀ a ∈ as, Q a) (many reader) :=
  fun _ _ _ ht hr => Keeps.manyUpTo h _ _ _ _ ht hr

end FactGraph.Parser
