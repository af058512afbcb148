import Mnemonic.CommandLine.Options

/-!
# CommandLine/Help — what the program says about itself
-/

namespace Mnemonic.CommandLine

/-- The version number. -/
def versionNumber : String := "0.1.0"

/-- The answer to `--version`. -/
def versionText : String := "glyphic " ++ versionNumber

/-- The answer to `-h`. -/
def briefHelp : List String :=
  ["Translate mnemonic source into glyph notation",
   "",
   "Usage: glyphic [OPTIONS] [FILE]",
   "",
   "Arguments:",
   "  [FILE]  Source file to translate (defaults to standard input)",
   "",
   "Options:",
   "  -e, --eval <CODE>      Translate CODE instead of reading a file",
   "  -i, --interactive      Start a line-by-line translation prompt",
   "      --tokens           Print one token per line instead of the joined output",
   "      --catalog          Print the instruction table and exit",
   "      --lenient-strings  Let an unterminated string run to end of input instead of failing",
   "  -v, --verbose...       Increase log verbosity (-v info, -vv debug, -vvv trace)",
   "  -h, --help             Print help (see more with '--help')",
   "  -V, --version          Print version"]

/-- The answer to `--help`. -/
def fullHelp : List String :=
  ["Translate mnemonic source into glyph notation.",
   "",
   "With no arguments the source is read from standard input and the translation is written to " ++
     "standard output.",
   "",
   "Usage: glyphic [OPTIONS] [FILE]",
   "",
   "Arguments:",
   "  [FILE]",
   "          Source file to translate (defaults to standard input)",
   "",
   "Options:",
   "  -e, --eval <CODE>",
   "          Translate CODE instead of reading a file",
   "",
   "  -i, --interactive",
   "          Start a line-by-line translation prompt",
   "",
   "      --tokens",
   "          Print one token per line instead of the joined output",
   "",
   "      --catalog",
   "          Print the instruction table and exit",
   "",
   "      --lenient-strings",
   "          Let an unterminated string run to end of input instead of failing",
   "",
   "  -v, --verbose...",
   "          Increase log verbosity (-v info, -vv debug, -vvv trace)",
   "",
   "  -h, --help",
   "          Print help (see a summary with '-h')",
   "",
   "  -V, --version",
   "          Print version"]

/-- The lines of a help text. -/
def helpText : Detail → List String
  | .brief => briefHelp
  | .full => fullHelp

end Mnemonic.CommandLine
