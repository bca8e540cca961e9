/-! # Tokens

The text of a specification consists of words, of the two signs `->` and `=>`, and of single
characters. A word starts with an ASCII letter or an underscore and goes on with ASCII letters,
digits, underscores and dots. Blanks and comments stand between tokens and have no other meaning; a
comment runs from `//` to the end of the line.

A token knows how many characters lie between its start and the end of the text. -/

namespace FactGraph

/-- A token of the text of a specification. -/
inductive Token where
  | word (name : String)
  /-- The sign `->`. -/
  | arrow
  /-- The sign `=>`. -/
  | yields
  /-- Any other character, whether the language uses it or not. -/
  | char (c : Char)
  deriving DecidableEq, Repr

/-- A token and the number of characters from its start to the end of the text. -/
structure Lexeme where
  token : Token
  left : Nat
  deriving DecidableEq, Repr

namespace Token

/-! ### Character classes -/

/-- Whether a word can start with a character. -/
def isWordStart (c : Char) : Bool := c.isAlpha || c == '_'

/-- Whether a character can stand in a word. -/
def isWordChar (c : Char) : Bool := c.isAlphanum || c == '_' || c == '.'

/-- Whether a character only separates tokens. -/
def isBlank (c : Char) : Bool := c == ' ' || c == '\t' || c == '\r' || c == '\n'

/-- Whether a character ends a comment. -/
def isLineEnd (c : Char) : Bool := c == '\n' || c == '\r'

/-- Whether a name is a word of the language. -/
def isWord (name : String) : Bool :=
  match name.toList with
  | [] => false
  | c :: cs => isWordStart c && cs.all isWordChar

/-! ### Scanning -/

/-- The tokens of some characters of which the first `skip` belong to a token or comment that was
found before them. `left` is the number of characters. -/
def scan : (skip left : Nat) → List Char → List Lexeme
  | _, _, [] => []
  | skip + 1, left, _ :: cs => scan skip (left - 1) cs
  | 0, left, c :: cs =>
    if isBlank c then scan 0 (left - 1) cs
    else if isWordStart c then
      let tail := cs.takeWhile isWordChar
      ⟨word (String.ofList (c :: tail)), left⟩ :: scan tail.length (left - 1) cs
    else if c = '/' ∧ cs.head? = some '/' then
      scan (cs.takeWhile fun d => !isLineEnd d).length (left - 1) cs
    else if c = '-' ∧ cs.head? = some '>' then ⟨arrow, left⟩ :: scan 1 (left - 1) cs
    else if c = '=' ∧ cs.head? = some '>' then ⟨yields, left⟩ :: scan 1 (left - 1) cs
    else ⟨char c, left⟩ :: scan 0 (left - 1) cs

def ofText (text : List Char) : List Lexeme := scan 0 text.length text

end Token

end FactGraph
