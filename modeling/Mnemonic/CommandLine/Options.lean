import Mnemonic.Translation

/-!
# CommandLine/Options — what a command line asks for
-/

namespace Mnemonic.CommandLine

/-- The settings of one run. -/
structure Options where
  /-- Source text given in place of a file. -/
  code : Option String := none
  /-- The file to read the source from. -/
  file : Option String := none
  /-- Whether to go on with a line-by-line prompt. -/
  interactive : Bool := false
  /-- The form in which sources are shown. -/
  form : Form := .glyphs
  /-- Whether to print the instruction table and nothing else. -/
  table : Bool := false
  /-- What to do with string literals that are not closed. -/
  policy : StringPolicy := .reject
  deriving DecidableEq, Repr, Inhabited

/-- The two help texts. -/
inductive Detail
  | brief
  | full
  deriving DecidableEq, Repr

/-- What a well-formed command line asks for. -/
inductive Request
  | run (o : Options)
  | help (detail : Detail)
  | version
  deriving DecidableEq, Repr

/-- What is wrong with a command line. -/
inductive UsageError
  | unknownOption (name : String)
  | repeatedOption (name : String)
  /-- A value was attached to an option that takes none. -/
  | unexpectedValue (name : String)
  /-- No source text follows the option `--eval`. -/
  | missingCode
  | emptyFileName
  | secondFile (name : String)
  | fileAndCode
  deriving DecidableEq, Repr

/-- The wording of a usage error. -/
def UsageError.message : UsageError → String
  | unknownOption name => "unexpected argument '" ++ name ++ "' found"
  | repeatedOption name => "the argument '" ++ name ++ "' cannot be used multiple times"
  | unexpectedValue name => "the argument '" ++ name ++ "' takes no value"
  | missingCode => "a value is required for '--eval <CODE>' but none was supplied"
  | emptyFileName => "the name of a file cannot be empty"
  | secondFile name => "unexpected argument '" ++ name ++ "' found"
  | fileAndCode => "the argument '--eval <CODE>' cannot be used with '[FILE]'"

/-- The options that take no value. -/
inductive Flag
  | interactive
  | tokens
  | catalog
  | lenientStrings
  | verbose
  deriving DecidableEq, Repr

namespace Options

/-- Take `code` as the source. -/
def setCode (o : Options) (code : String) : Except UsageError Options :=
  if o.code.isSome then .error (.repeatedOption "--eval") else .ok { o with code := some code }

/-- Take `file` as the file to read. -/
def setFile (o : Options) (file : String) : Except UsageError Options :=
  if file.isEmpty then .error .emptyFileName
  else if o.file.isSome then .error (.secondFile file)
  else .ok { o with file := some file }

/-- Set a flag.  Only `--verbose` may be repeated; it asks for a more detailed log, and no log is
written. -/
def raise (o : Options) : Flag → Except UsageError Options
  | .interactive =>
    if o.interactive then .error (.repeatedOption "--interactive")
    else .ok { o with interactive := true }
  | .tokens =>
    if o.form = .tokens then .error (.repeatedOption "--tokens")
    else .ok { o with form := .tokens }
  | .catalog =>
    if o.table then .error (.repeatedOption "--catalog") else .ok { o with table := true }
  | .lenientStrings =>
    if o.policy = .extendToEnd then .error (.repeatedOption "--lenient-strings")
    else .ok { o with policy := .extendToEnd }
  | .verbose => .ok o

/-- The request of a command line that has been read to its end. -/
def finish (o : Options) : Except UsageError Request :=
  if o.file.isSome && o.code.isSome then .error .fileAndCode else .ok (.run o)

/-- A source in the form that the options ask for. -/
def render (o : Options) (source : String) : Except LexError String :=
  Mnemonic.render o.form o.policy source

end Options

end Mnemonic.CommandLine
