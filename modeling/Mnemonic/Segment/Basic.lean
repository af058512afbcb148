import Mnemonic.Text.Blank

/-!
# Segment/Basic — the lexical parts of a source

A source is a row of **segments**: blanks, comments, string, character and number literals,
parentheses, brackets and words.
-/

namespace Mnemonic

/-- What to do with a string literal that the source does not close. -/
inductive StringPolicy
  /-- It is an error. -/
  | reject
  /-- It runs to the end of the source. -/
  | extendToEnd
  deriving DecidableEq, Repr, Inhabited

/-- A literal that the source does not finish. -/
inductive Unterminated
  /-- A mark of a character literal with no character after it. -/
  | char
  /-- An opening quote with no closing one. -/
  | string
  deriving DecidableEq, Repr

/-- A character that ends a word. -/
def isDelimiter (c : Char) : Bool :=
  isBlank c || ['(', ')', '[', ']', '"', '#', '@', 'λ'].contains c

/-- A lexical part of a source. -/
inductive Segment
  /-- One blank. -/
  | blank (c : Char)
  /-- A number sign and the rest of its line; `closed` when a line break ends it. -/
  | comment (body : List Char) (closed : Bool)
  /-- A quote and what follows it; `closed` when a second quote ends it. -/
  | string (body : List Char) (closed : Bool)
  /-- An at sign and any one character. -/
  | char (c : Char)
  /-- A round bracket of either direction. -/
  | paren (c : Char)
  /-- A square bracket of either direction. -/
  | bracket (c : Char)
  /-- A run of digits. -/
  | number (digits : List Char)
  /-- A run of characters that none of the other forms claims. -/
  | word (run : List Char)
  deriving DecidableEq, Repr

namespace Segment

/-- The characters of a segment. -/
def text : Segment → List Char
  | blank c => [c]
  | comment body closed => '#' :: (body ++ if closed then ['\n'] else [])
  | string body closed => '"' :: (body ++ if closed then ['"'] else [])
  | char c => ['@', c]
  | paren c => [c]
  | bracket c => [c]
  | number digits => digits
  | word run => run

end Segment

end Mnemonic
