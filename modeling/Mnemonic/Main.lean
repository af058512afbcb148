import Mnemonic.CommandLine.Run

/-!
# Main — the program

Reads what a request can look at and shows the outcome.  Standard input is read only by a run that
uses it.
-/

namespace Mnemonic.CommandLine

/-- The failure that an error of the system stands for; an unusual one counts as a failed read.
A directory is refused when it is read, anything else of the wrong type when it is looked up, and a
look-up argues about nothing but the length of its name. -/
def ReadFailure.ofError : IO.Error → ReadFailure
  | .noFileOrDirectory _ _ _ => notFound
  | .inappropriateType _ 21 _ => isDirectory
  | .inappropriateType _ _ _ => notDirectory
  | .invalidArgument _ _ _ => nameTooLong
  | .permissionDenied _ _ _ => .system "Permission denied" 13
  | _ => .system "Input/output error" 5

/-- The content of a file. -/
def readFile (name : String) : IO (Except ReadFailure Bytes) := do
  try
    return .ok (← IO.FS.readBinFile name).toList
  catch e =>
    return .error (.ofError e)

/-- The number of bytes of standard input that are asked for at once. -/
def chunkSize : USize := 4096

/-- All that standard input delivers, and how it ends. -/
def readStdin : IO Input := do
  let stdin ← IO.getStdin
  let mut bytes := ByteArray.empty
  repeat
    match ← (stdin.read chunkSize).toBaseIO with
    | .ok chunk =>
      if chunk.isEmpty then
        break
      bytes := bytes ++ chunk
    | .error e => return ⟨bytes.toList, some (.ofError e)⟩
  return .ofBytes bytes.toList

/-- The world as far as a request looks at it. -/
def observe : Request → IO World
  | .run o => do
    let file ← match o.file with
      | some name => readFile name
      | none => pure (.error .notFound)
    let stdin ← if o.readsStdin then readStdin else pure (.ofBytes [])
    return ⟨fun _ => file, stdin⟩
  | _ => return ⟨fun _ => .error .notFound, .ofBytes []⟩

/-- Run the program; the answer is its exit code. -/
def execute (args : List String) : IO UInt32 := do
  match parse args with
  | .error e =>
    IO.eprintln ("error: " ++ e.message)
    return Status.usage.code
  | .ok request =>
    let o := request.outcome (← observe request)
    IO.print o.stdout
    IO.eprint o.stderr
    return o.status.code

end Mnemonic.CommandLine

def main (args : List String) : IO UInt32 := Mnemonic.CommandLine.execute args
