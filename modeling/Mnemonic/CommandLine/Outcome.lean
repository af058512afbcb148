import Mnemonic.Lexer

/-!
# CommandLine/Outcome — what a run prints, reports and returns

Everything a run prints is a row of texts, each followed by a line break; everything it reports is a
row of failures, each on a line of its own that begins with `Error: `.
-/

namespace Mnemonic.CommandLine

/-! ## Failures -/

/-- Why bytes cannot be had from outside, or cannot be read as text. -/
inductive ReadFailure
  /-- The system refused, for a reason that it numbers. -/
  | system (reason : String) (code : Nat)
  /-- The bytes are not well-formed UTF-8. -/
  | notText
  deriving DecidableEq, Repr

namespace ReadFailure

/-- No file has the given name. -/
def notFound : ReadFailure := .system "No such file or directory" 2

/-- The name belongs to a directory. -/
def isDirectory : ReadFailure := .system "Is a directory" 21

/-- The name goes on behind something that is no directory. -/
def notDirectory : ReadFailure := .system "Not a directory" 20

/-- The name has more bytes than the system takes. -/
def nameTooLong : ReadFailure := .system "File name too long" 36

/-- The wording of a read failure. -/
def message : ReadFailure → String
  | system reason code => reason ++ " (os error " ++ toString code ++ ")"
  | notText => "stream did not contain valid UTF-8"

end ReadFailure

/-- What a run can fail at. -/
inductive Failure
  | file (name : String) (cause : ReadFailure)
  | standardInput (cause : ReadFailure)
  | promptLine (cause : ReadFailure)
  | source (cause : LexError)
  deriving DecidableEq, Repr

/-- The wording of a failure. -/
def Failure.message : Failure → String
  | file name cause => "Failed to read " ++ name ++ ": " ++ cause.message
  | standardInput cause => "Failed to read standard input: " ++ cause.message
  | promptLine cause => "Readline error: " ++ cause.message
  | source cause => cause.message

/-! ## Outcomes -/

/-- How a run ends. -/
inductive Status
  | success
  | failure
  /-- The command line was wrong. -/
  | usage
  deriving DecidableEq, Repr

/-- The exit code. -/
def Status.code : Status → UInt32
  | .success => 0
  | .failure => 1
  | .usage => 2

/-- The visible effect of a run. -/
structure Outcome where
  status : Status
  /-- The texts on standard output, without the line break after each. -/
  printed : List String
  /-- The failures on standard error. -/
  reported : List Failure
  deriving DecidableEq, Repr

namespace Outcome

/-- Success with some texts. -/
def prints (texts : List String) : Outcome := ⟨.success, texts, []⟩

/-- The end of a run that failed. -/
def fails (f : Failure) : Outcome := ⟨.failure, [], [f]⟩

/-- The same run after `text` has been printed. -/
def afterPrinting (text : String) (o : Outcome) : Outcome :=
  { o with printed := text :: o.printed }

/-- The same run after `f` has been reported. -/
def afterReporting (f : Failure) (o : Outcome) : Outcome :=
  { o with reported := f :: o.reported }

/-- Standard output as one text. -/
def stdout (o : Outcome) : String := String.join (o.printed.map (· ++ "\n"))

/-- Standard error as one text. -/
def stderr (o : Outcome) : String :=
  String.join (o.reported.map fun f => "Error: " ++ f.message ++ "\n")

end Outcome

end Mnemonic.CommandLine
