import Mnemonic.CommandLine.Options
import Mnemonic.Text.Cut

/-!
# CommandLine/Arguments — reading a command line

Arguments are read from the left.  The first one that is wrong, or that asks for help or for the
version, settles the answer; that a file and a source text exclude each other is seen only at the
end.

* `--name` and `--name=value` are long options; names are not abbreviated.
* `-abc` is a bundle of short options; what follows `e` in it is the value of `e`, less one leading
  equals sign.
* `--eval` and `-e` without an attached value take the next argument, unless that starts with a
  dash and is more than a dash.
* After `--` every argument is a file name, and a lone dash is one anywhere.
-/

namespace Mnemonic.CommandLine

/-- What an option stands for. -/
inductive Switch
  | flag (f : Flag)
  | eval
  | help
  | version
  deriving DecidableEq, Repr

namespace Switch

/-- The option with a long name. -/
def ofName? : String → Option Switch
  | "eval" => some .eval
  | "interactive" => some (.flag .interactive)
  | "tokens" => some (.flag .tokens)
  | "catalog" => some (.flag .catalog)
  | "lenient-strings" => some (.flag .lenientStrings)
  | "verbose" => some (.flag .verbose)
  | "help" => some .help
  | "version" => some .version
  | _ => none

/-- The option with a short name. -/
def ofLetter? : Char → Option Switch
  | 'e' => some .eval
  | 'i' => some (.flag .interactive)
  | 'v' => some (.flag .verbose)
  | 'h' => some .help
  | 'V' => some .version
  | _ => none

end Switch

/-- What one argument does. -/
inductive Effect
  /-- Reading goes on with these settings. -/
  | proceed (o : Options)
  /-- The next argument is the source text. -/
  | awaitCode (o : Options)
  /-- The rest of the command line does not matter. -/
  | answer (r : Request)
  deriving DecidableEq, Repr

namespace Options

/-- The effect of `--name` or `--name=value`. -/
def long (o : Options) (name : String) (value : Option String) : Except UsageError Effect :=
  match Switch.ofName? name, value with
  | none, _ => .error (.unknownOption ("--" ++ name))
  | some .eval, some code => .proceed <$> o.setCode code
  | some .eval, none => .ok (.awaitCode o)
  | some _, some _ => .error (.unexpectedValue ("--" ++ name))
  | some (.flag f), none => .proceed <$> o.raise f
  | some .help, none => .ok (.answer (.help .full))
  | some .version, none => .ok (.answer .version)

/-- The effect of the letters of a bundle. -/
def letters (o : Options) : List Char → Except UsageError Effect
  | [] => .ok (.proceed o)
  | c :: cs =>
    match Switch.ofLetter? c with
    | none => .error (.unknownOption (String.ofList ['-', c]))
    | some .eval =>
      match cs with
      | [] => .ok (.awaitCode o)
      | '=' :: code => .proceed <$> o.setCode (.ofList code)
      | code => .proceed <$> o.setCode (.ofList code)
    | some (.flag f) => do (← o.raise f).letters cs
    | some .help => .ok (.answer (.help .brief))
    | some .version => .ok (.answer .version)

/-- The effect of an argument other than `--`. -/
def argument (o : Options) (arg : String) : Except UsageError Effect :=
  match arg.toList with
  | '-' :: '-' :: body =>
    let (name, value) := upTo '=' body
    o.long (.ofList name) (value.map .ofList)
  | '-' :: c :: cs => o.letters (c :: cs)
  | _ => .proceed <$> o.setFile arg

/-- Whether an argument is read as options even where a value is due. -/
def looksLikeOption (arg : String) : Bool := arg.startsWith "-" && arg != "-"

/-- The request of the arguments that follow those behind `o`. -/
def read (o : Options) : List String → Except UsageError Request
  | [] => o.finish
  | arg :: args =>
    if arg = "--" then do (← args.foldlM setFile o).finish
    else
      match o.argument arg with
      | .error e => .error e
      | .ok (.answer r) => .ok r
      | .ok (.proceed o') => o'.read args
      | .ok (.awaitCode o') =>
        match args with
        | [] => .error .missingCode
        | code :: args' =>
          if looksLikeOption code then .error .missingCode
          else
            match o'.setCode code with
            | .error e => .error e
            | .ok o'' => o''.read args'

end Options

/-- The request of a command line, given without the name of the program. -/
def parse (args : List String) : Except UsageError Request := Options.read {} args

end Mnemonic.CommandLine
