import Mnemonic.Lexer

/-!
# Translation — a source written in glyphs

The translation of a source is the text of its tokens, one after the other; a **listing** shows each
token on lines of its own instead.
-/

namespace Mnemonic

/-- The text of a row of tokens. -/
def assemble (ts : List Token) : String := String.join (ts.map Token.text)

/-- One entry for each token, joined by line breaks. -/
def listing (ts : List Token) : String := "\n".intercalate (ts.map Token.display)

/-- The translation of a source with the built-in instructions. -/
def translate (policy : StringPolicy) (source : String) : Except LexError String :=
  (tokenize .standard policy source).map assemble

/-- The forms in which a source is shown. -/
inductive Form
  /-- Translated. -/
  | glyphs
  /-- As a list of tokens. -/
  | tokens
  deriving DecidableEq, Repr

/-- A source in the asked form. -/
def render (form : Form) (policy : StringPolicy) (source : String) : Except LexError String :=
  match form with
  | .glyphs => translate policy source
  | .tokens => (tokenize .standard policy source).map listing

end Mnemonic
