import FactGraph.Proofs.Grammar.Words
import FactGraph.Specification.Printer

/-! # The tokens of a text

The tokens of a text without their places, from its start on: what stands at the start gives its
tokens whatever follows, but a word only if it does not go on. -/

namespace FactGraph

namespace Token

/-! ### The first token -/

variable {rest : List Char}

theorem ofText_blank {c : Char} (h : isBlank c = true) : ofText (c :: rest) = ofText rest := by
  rw [ofText, scan, if_pos h]
  rfl

/-- Characters of a class that belong to what was found before them are passed over. -/
theorem scan_takeWhile (p : Char → Bool) (cs : List Char) :
    scan (cs.takeWhile p).length cs.length cs = ofText (cs.dropWhile p) := by
  have hscan := scan_append (cs.takeWhile p) (cs.dropWhile p)
    ((cs.takeWhile p).length + (cs.dropWhile p).length)
  rwa [Nat.add_sub_cancel_left, ← List.length_append, List.takeWhile_append_dropWhile] at hscan

theorem ofText_word {c : Char} (h : isWordStart c = true) :
    ofText (c :: rest) =
      ⟨word (String.ofList (c :: rest.takeWhile isWordChar)), (c :: rest).length⟩ ::
        ofText (rest.dropWhile isWordChar) := by
  rw [ofText, scan, if_neg (by simp [isBlank_of_isWordStart h]), if_pos h]
  exact congrArg _ (scan_takeWhile isWordChar rest)

theorem ofText_comment :
    ofText ('/' :: '/' :: rest) = ofText (rest.dropWhile fun c => !isLineEnd c) := by
  rw [ofText, scan, if_neg (by decide), if_neg (by decide), if_pos ⟨rfl, rfl⟩]
  exact scan_takeWhile (fun c => !isLineEnd c) ('/' :: rest)

/-- Characters that are tokens of their own wherever they stand. -/
def isSign (c : Char) : Bool :=
  !isBlank c && !isWordStart c && c != '/' && c != '-' && c != '='

theorem ofText_sign {c : Char} (h : isSign c = true) :
    ofText (c :: rest) = ⟨char c, rest.length + 1⟩ :: ofText rest := by
  simp only [isSign, Bool.and_eq_true, Bool.not_eq_true', bne_iff_ne] at h
  obtain ⟨⟨⟨⟨hb, hw⟩, hs⟩, ha⟩, he⟩ := h
  exact scan_char hb hw ⟨hs, ha, he⟩ _ rest

theorem ofText_arrow : ofText ('-' :: '>' :: rest) = ⟨arrow, rest.length + 2⟩ :: ofText rest := by
  rw [ofText, scan, if_neg (by decide), if_neg (by decide), if_neg (by simp), if_pos ⟨rfl, rfl⟩,
    scan]
  rfl

theorem ofText_yields : ofText ('=' :: '>' :: rest) = ⟨yields, rest.length + 2⟩ :: ofText rest := by
  rw [ofText, scan, if_neg (by decide), if_neg (by decide), if_neg (by simp), if_neg (by simp),
    if_pos ⟨rfl, rfl⟩, scan]
  rfl

theorem ofText_equals {c : Char} (h : c ≠ '>') :
    ofText ('=' :: c :: rest) = ⟨char '=', rest.length + 2⟩ :: ofText (c :: rest) := by
  rw [ofText, scan, if_neg (by decide), if_neg (by decide), if_neg (by simp),
    if_neg (by simp), if_neg (by simp [h])]
  rfl

/-! ### Tokens without places -/

/-- The tokens of some characters. -/
def read (cs : List Char) : List Token := (ofText cs).map Lexeme.token

/-- No word goes on with the first of some characters. -/
def EndsWord (cs : List Char) : Prop := ∀ c ∈ cs.head?, isWordChar c = false

@[simp]
theorem endsWord_nil : EndsWord [] := by simp [EndsWord]

@[simp]
theorem endsWord_cons {c : Char} {cs : List Char} : EndsWord (c :: cs) ↔ isWordChar c = false := by
  simp [EndsWord]

theorem map_token_scan : ∀ (cs : List Char) (skip left left' : Nat),
    (scan skip left cs).map Lexeme.token = (scan skip left' cs).map Lexeme.token
  | [], _, _, _ => by simp [scan]
  | c :: cs, skip + 1, left, left' => by
    rw [scan, scan, map_token_scan cs skip _ (left' - 1)]
  | c :: cs, 0, left, left' => by
    have ih := fun skip => map_token_scan cs skip (left - 1) (left' - 1)
    rw [scan, scan]
    split_ifs <;> simp only [List.map_cons, ih]

theorem read_eq (cs : List Char) (left : Nat) :
    read cs = (scan 0 left cs).map Lexeme.token :=
  map_token_scan cs 0 cs.length left

@[simp]
theorem read_nil : read [] = [] := rfl

theorem read_blank {c : Char} (h : isBlank c = true) : read (c :: rest) = read rest :=
  congrArg (List.map Lexeme.token) (ofText_blank h)

theorem read_sign {c : Char} (h : isSign c = true) : read (c :: rest) = .char c :: read rest :=
  congrArg (List.map Lexeme.token) (ofText_sign h)

theorem read_word {name : String} (h : isWord name = true) (hr : EndsWord rest) :
    read (name.toList ++ rest) = .word name :: read rest := by
  rw [read, ofText, scan_word h hr, List.map_cons, read_eq rest]

theorem read_arrow : read ('-' :: '>' :: rest) = .arrow :: read rest :=
  congrArg (List.map Lexeme.token) ofText_arrow

theorem read_equals {c : Char} (h : c ≠ '>') :
    read ('=' :: c :: rest) = .char '=' :: read (c :: rest) :=
  congrArg (List.map Lexeme.token) (ofText_equals h)

theorem read_yields : read ('=' :: '>' :: rest) = .yields :: read rest :=
  congrArg (List.map Lexeme.token) ofText_yields

end Token

theorem toList_pushn {s : String} {c : Char} : ∀ {n : Nat},
    (s.pushn c n).toList = s.toList ++ List.replicate n c
  | 0 => by simp [String.pushn, Nat.repeat]
  | n + 1 => by
    have ih := @toList_pushn s c n
    rw [String.pushn] at ih ⊢
    rw [Nat.repeat, String.toList_push, ih, List.replicate_succ', List.append_assoc]

theorem Token.read_indentation {depth : Nat} {rest : List Char} :
    Token.read ((indentation depth).toList ++ rest) = Token.read rest := by
  rw [indentation, toList_pushn, String.toList_empty, List.nil_append]
  induction 4 * depth with
  | zero => rfl
  | succ n ih =>
    rw [List.replicate_succ, List.cons_append, Token.read_blank (by decide), ih]

end FactGraph
