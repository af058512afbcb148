import Mnemonic.Text.Bytes

/-!
# Text/Lines — an input cut into lines

A line feed ends a line, together with a carriage return right before it.  What follows the last
line feed is a line too, unless it is empty, and keeps a carriage return at its end.  The cut is the
same for bytes as for characters, so an input can be cut before it is known to be a text.
-/

namespace Mnemonic

/-- The lines of an input, without their ends, in an alphabet with the control codes `cr` and
`lf`. -/
def linesBy {α : Type} [DecidableEq α] (cr lf : α) : List α → List (List α)
  | [] => []
  | a :: as =>
    if a = lf then [] :: linesBy cr lf as
    else if a = cr ∧ as.head? = some lf then linesBy cr lf as
    else
      match linesBy cr lf as with
      | [] => [[a]]
      | line :: rest => (a :: line) :: rest

/-- The lines of raw bytes. -/
def Bytes.lines (bytes : Bytes) : List Bytes := linesBy 0x0D 0x0A bytes

/-- Raw bytes without a last line that no line feed ends. -/
def Bytes.ended (bytes : Bytes) : Bytes := (bytes.reverse.dropWhile (· != 0x0A)).reverse

example : linesBy '\r' '\n' "ab\r\n\r\r\nc\n\n\r".toList =
    [['a', 'b'], ['\r'], ['c'], [], ['\r']] := by
  decide

end Mnemonic
