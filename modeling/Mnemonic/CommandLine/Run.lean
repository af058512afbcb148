import Mnemonic.CommandLine.Arguments
import Mnemonic.CommandLine.FileTree
import Mnemonic.CommandLine.Prompt

/-!
# CommandLine/Run — a run of the program

A run takes one source, from the command line, a file or standard input, and shows it; with a
prompt it then, or instead, answers standard input line by line.  A source that cannot be read or
shown ends the run before anything is printed.
-/

namespace Mnemonic.CommandLine

/-- What a run can read. -/
structure World where
  /-- The content of the file of each name. -/
  files : String → Except ReadFailure Bytes
  /-- Standard input. -/
  stdin : Input

/-- The world whose names are the paths of a tree of files, with an input that ends. -/
def World.ofTree (t : FileTree) (stdin : Bytes) : World := ⟨t.lookup, .ofBytes stdin⟩

namespace Options

/-- The source that the options name; a prompt alone has none. -/
def source? (o : Options) (w : World) : Except Failure (Option String) :=
  match o.code, o.file with
  | some code, _ => .ok (some code)
  | none, some name =>
    match w.files name with
    | .error cause => .error (.file name cause)
    | .ok bytes =>
      match decode? bytes with
      | none => .error (.file name .notText)
      | some source => .ok (some source)
  | none, none =>
    if o.interactive then .ok none
    else
      match w.stdin.text with
      | .error cause => .error (.standardInput cause)
      | .ok source => .ok (some source)

/-- What happens once the source has been shown. -/
def afterSource (o : Options) (w : World) : Outcome :=
  if o.interactive then o.session w.stdin else .prints []

/-- A run with the given options. -/
def run (o : Options) (w : World) : Outcome :=
  if o.table then .prints (Catalog.standard.rows.map Instruction.display)
  else
    match o.source? w with
    | .error f => .fails f
    | .ok none => o.afterSource w
    | .ok (some source) =>
      match o.render source with
      | .error cause => .fails (.source cause)
      | .ok text => (o.afterSource w).afterPrinting text

/-- Whether the run looks at standard input. -/
def readsStdin (o : Options) : Bool :=
  !o.table && (o.interactive || o.code.isNone && o.file.isNone)

end Options

/-- The outcome of a request. -/
def Request.outcome (r : Request) (w : World) : Outcome :=
  match r with
  | .run o => o.run w
  | .help detail => .prints (helpText detail)
  | .version => .prints [versionText]

/-- The outcome of a command line. -/
def outcome (args : List String) (w : World) : Outcome :=
  match parse args with
  | .error _ => ⟨.usage, [], []⟩
  | .ok r => r.outcome w

end Mnemonic.CommandLine
