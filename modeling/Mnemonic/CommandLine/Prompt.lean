import Mnemonic.CommandLine.Help
import Mnemonic.CommandLine.Input

/-!
# CommandLine/Prompt — a session that answers line by line

Each line of standard input is answered by itself: nothing that one line does changes the answer to
another.  A session ends at a line that says so, at a line that is no text, or with the input; it
fails where the input breaks off.
-/

namespace Mnemonic.CommandLine

/-- The answer to one line. -/
inductive Reply
  /-- The session ends. -/
  | leave
  /-- A blank line has no answer. -/
  | skip
  | print (text : String)
  | report (cause : LexError)
  deriving DecidableEq, Repr

/-- The first line of a session. -/
def banner : String := "Glyphic v" ++ versionNumber ++ " - Type 'exit' or Ctrl+D to quit"

/-- The last line of a session. -/
def farewell : String := "Goodbye!"

namespace Options

/-- The answer to a line.  Blanks at its ends do not count for the exit words and for whether it is
blank, but they are part of the source. -/
def reply (o : Options) (line : String) : Reply :=
  let core := String.ofList (trim line.toList)
  if core = "exit" ∨ core = "quit" then .leave
  else if core.isEmpty then .skip
  else
    match o.render line with
    | .ok text => .print text
    | .error cause => .report cause

/-- The answers to some lines, and `ending` behind them. -/
def converse (o : Options) (ending : Outcome) : List Bytes → Outcome
  | [] => ending
  | line :: rest =>
    match decode? line with
    | none => .fails (.promptLine .notText)
    | some line =>
      match o.reply line with
      | .leave => .prints [farewell]
      | .skip => o.converse ending rest
      | .print text => (o.converse ending rest).afterPrinting text
      | .report cause => (o.converse ending rest).afterReporting (.source cause)

end Options

/-- What comes behind the last line of an input. -/
def Input.ending (i : Input) : Outcome :=
  match i.failure with
  | none => .prints ["", farewell]
  | some cause => .fails (.promptLine cause)

@[simp] theorem Input.ending_ofBytes (bytes : Bytes) :
    (ofBytes bytes).ending = .prints ["", farewell] := rfl

/-- A whole session on the given standard input. -/
def Options.session (o : Options) (stdin : Input) : Outcome :=
  ((o.converse stdin.ending stdin.lines).afterPrinting "").afterPrinting banner

end Mnemonic.CommandLine
