import FactGraph.Proofs.Grammar.Reads

/-! # Where readers fail

An alternative is only tried where the ones before it fail, and a repetition ends where its reader
does. So what is read depends on where readers fail, which is told by the next token.

* `Parser.fails_bind_iff`: where a sequence fails.
* `Parser.ReadsEach.reads_many`: a repetition takes one element after the other until its reader
  fails. -/

namespace FactGraph.Parser

variable {α β : Type} {tokens rest : List Lexeme}

/-! ### Combinators -/

theorem fails_bind_iff {first : Parser α} {second : α → Parser β} :
    Fails (first >>= second) tokens ↔
      ∀ a middle, Reads first tokens a middle → Fails (second a) middle := by
  show (andThen first second tokens).result = none ↔ _
  unfold andThen Reads Fails
  rcases h : first tokens with ⟨attempts, _ | ⟨a, middle⟩⟩
  · simp
  · constructor
    · rintro hf _ _ he
      cases he
      exact hf
    · exact fun hf => hf a middle rfl

theorem fails_orElse_iff {first second : Parser α} :
    Fails (orElse first second) tokens ↔ Fails first tokens ∧ Fails second tokens := by
  unfold orElse Fails
  rcases h : first tokens with ⟨attempts, _ | ⟨a, middle⟩⟩ <;> simp [h]

theorem reads_unique {reader : Parser α} {a b : α} {rest' : List Lexeme}
    (h : Reads reader tokens a rest) (h' : Reads reader tokens b rest') : a = b ∧ rest = rest' := by
  simpa using Option.some_inj.mp (h.symm.trans h')

theorem reads_optional_some {reader : Parser α} {a : α} (h : Reads reader tokens a rest) :
    Reads (optional reader) tokens (some a) rest := by
  simp only [optional, reads_orElse, reads_andThen, reads_succeed]
  exact Or.inl ⟨a, rest, h, rfl, rfl⟩

/-! ### Repetitions -/

/-- A reader reads one element after the other, and fails behind the last one. -/
inductive ReadsEach (reader : Parser α) : List Lexeme → List α → List Lexeme → Prop
  | done {tokens : List Lexeme} (fails : Fails reader tokens) : ReadsEach reader tokens [] tokens
  | more {tokens middle rest : List Lexeme} {a : α} {as : List α}
      (first : Reads reader tokens a middle) (shorter : middle.length < tokens.length)
      (others : ReadsEach reader middle as rest) : ReadsEach reader tokens (a :: as) rest

/-- **A repetition takes one element after the other until its reader fails.** -/
theorem ReadsEach.reads_many {reader : Parser α} {as : List α}
    (h : ReadsEach reader tokens as rest) : Reads (many reader) tokens as rest := by
  have hcount : ∀ count, tokens.length < count →
      Reads (manyUpTo reader count) tokens as rest := by
    induction h with
    | done fails =>
      rintro (_ | count) hlt
      · exact absurd hlt (Nat.not_lt_zero _)
      · simp only [manyUpTo, reads_orElse]
        exact Or.inr ⟨fails_bind fails, reads_succeed.mpr ⟨rfl, rfl⟩⟩
    | more first shorter _ ih =>
      rintro (_ | count) hlt
      · exact absurd hlt (Nat.not_lt_zero _)
      · simp only [manyUpTo, reads_orElse, reads_andThen, reads_succeed]
        exact Or.inl ⟨_, _, first, _, _, ih count (by omega), rfl, rfl⟩
  exact hcount _ (Nat.lt_succ_self _)

/-! ### The next token -/

/-- The next token is none of some tokens. -/
def NextNot (excluded : List Token) (tokens : List Lexeme) : Prop :=
  ∀ l ∈ tokens.head?, l.token ∉ excluded

@[simp]
theorem nextNot_nil {excluded : List Token} : NextNot excluded [] := by simp [NextNot]

@[simp]
theorem nextNot_cons {excluded : List Token} {l : Lexeme} :
    NextNot excluded (l :: tokens) ↔ l.token ∉ excluded := by
  simp [NextNot]

theorem fails_token {expected : Token} (h : NextNot [expected] tokens) :
    Fails (token expected) tokens := by
  rcases tokens with _ | ⟨l, tokens⟩
  · rfl
  · simp only [nextNot_cons, List.mem_singleton] at h
    simp [Fails, token, fail, h]

theorem fails_sign {c : Char} (h : NextNot [.char c] tokens) : Fails (sign c) tokens :=
  fails_token h

/-- The next token is no word. -/
def NextNoWord (tokens : List Lexeme) : Prop := ∀ l ∈ tokens.head?, ∀ name, l.token ≠ .word name

theorem fails_identifier (h : NextNoWord tokens) : Fails identifier tokens := by
  refine fails_rule.mpr ?_
  rcases tokens with _ | ⟨⟨t, left⟩, tokens⟩
  · rfl
  · cases t with
    | word name => exact absurd rfl (h ⟨.word name, left⟩ rfl name)
    | _ => rfl

theorem reads_equals {left : Nat} : Reads equals (⟨.char '=', left⟩ :: rest) () rest := rfl

theorem fails_equals (h : NextNot [.char '=', .yields] tokens) : Fails equals tokens := by
  unfold Fails equals
  split
  · simp at h
  · simp at h
  · rfl

theorem reads_existsSign {left : Nat} (h : continuesWord rest = false) :
    Reads existsSign (⟨.word "E", left⟩ :: rest) () rest := by
  simp [Reads, existsSign, h, succeed]

theorem eq_of_reads_existsSign {u : Unit} (h : Reads existsSign tokens u rest) :
    ∃ left, tokens = ⟨.word "E", left⟩ :: rest := by
  unfold Reads existsSign at h
  split at h
  · split_ifs at h with hc
    · cases h
    · cases h
      exact ⟨_, rfl⟩
  · cases h

end FactGraph.Parser
