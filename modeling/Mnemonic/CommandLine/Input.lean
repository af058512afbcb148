import Mnemonic.CommandLine.Outcome
import Mnemonic.Text.Lines

/-!
# CommandLine/Input — standard input, and how it ends

Standard input delivers bytes and then ends, or breaks off because the system refuses to read on.
Asked for as a whole, an input that breaks off is a failure, whatever it has delivered; asked for
line by line, it has every line that a line feed has ended by then.
-/

namespace Mnemonic.CommandLine

/-- Standard input. -/
structure Input where
  /-- The bytes that it delivers. -/
  bytes : Bytes
  /-- The failure that it breaks off with, unless it ends. -/
  failure : Option ReadFailure
  deriving DecidableEq, Repr

namespace Input

/-- An input that ends. -/
def ofBytes (bytes : Bytes) : Input := ⟨bytes, none⟩

/-- The whole input as a text. -/
def text (i : Input) : Except ReadFailure String :=
  match i.failure with
  | some cause => .error cause
  | none =>
    match decode? i.bytes with
    | none => .error .notText
    | some text => .ok text

/-- The lines that can be read. -/
def lines (i : Input) : List Bytes :=
  match i.failure with
  | none => i.bytes.lines
  | some _ => i.bytes.ended.lines

@[simp] theorem lines_ofBytes (bytes : Bytes) : (ofBytes bytes).lines = bytes.lines := rfl

end Input

end Mnemonic.CommandLine
