import Mnemonic.Position

/-!
# Token — what a source is read into

A token carries its **text** as it is printed, which for an operator is a glyph and not what was
typed, and the **span** of the source that it stands for.
-/

namespace Mnemonic

namespace Token

/-- The kinds of tokens. -/
inductive Kind
  /-- An unbroken run of digits. -/
  | number
  /-- A string literal with its quotes. -/
  | string
  /-- A character literal, `@` and one character. -/
  | char
  | paren
  | bracket
  /-- A glyph, or a character that no instruction claims. -/
  | operator
  /-- A blank of any sort. -/
  | space
  deriving DecidableEq, Repr, Inhabited

/-- The kind as token listings spell it. -/
def Kind.label : Kind → String
  | .number => "NUMBER"
  | .string => "STRING"
  | .char => "CHAR"
  | .paren => "PAREN"
  | .bracket => "BRACKET"
  | .operator => "OPERATOR"
  | .space => "SPACE"

end Token

/-- A token of a source. -/
structure Token where
  kind : Token.Kind
  /-- The text to print. -/
  text : String
  /-- The part of the source it stands for. -/
  span : Span
  deriving DecidableEq, Repr, Inhabited

namespace Token

/-- The entry of a token listing; the text stands in it as it is. -/
def display (t : Token) : String := "Token(" ++ t.kind.label ++ ", \"" ++ t.text ++ "\")"

end Token

end Mnemonic
