import Mnemonic.CommandLine.Outcome

/-!
# CommandLine/FileTree — files in directories, and the paths that lead to them

A path is a row of parts between slashes.  It is followed part by part, from the working directory
or, behind a leading slash, from the root, and every part needs a directory to be followed in: a
file can only stand at the end.  A part may also be empty or a dot, which stay, or two dots, which
lead outwards; so a trailing slash asks for a directory, although it adds no name.
-/

namespace Mnemonic.CommandLine

/-- The names that lead from the root to a file or directory, the last name first. -/
abbrev Place := List String

/-- The parts before, between and after the slashes of a text. -/
def cutAtSlashes : List Char → List (List Char)
  | [] => [[]]
  | c :: cs =>
    if c = '/' then [] :: cutAtSlashes cs
    else
      match cutAtSlashes cs with
      | [] => [[c]]
      | part :: parts => (c :: part) :: parts

/-- The parts of a path. -/
def pathParts (path : String) : List String := (cutAtSlashes path.toList).map String.ofList

example : pathParts "d/.././p" = ["d", "..", ".", "p"] := by decide

/-- The place that a path without dots names inside `p`. -/
def Place.within (p : Place) (path : String) : Place :=
  ((pathParts path).filter (· ≠ "")).reverse ++ p

/-- What can stand at a place. -/
inductive Entry
  | file (content : Bytes)
  | directory
  deriving DecidableEq, Repr

/-- The files and directories that a path can lead to. -/
structure FileTree where
  /-- The working directory. -/
  home : Place
  /-- What stands where; the directories around it need no entry of their own. -/
  entries : List (Place × Entry)

/-- The largest number of bytes of a name. -/
def nameLimit : Nat := 255

/-- The largest number of bytes of a path. -/
def pathLimit : Nat := 4095

namespace FileTree

variable (t : FileTree)

/-- Whether a place is, or lies around, the working directory or an entry. -/
def surrounds (p : Place) : Bool := (t.home :: t.entries.map Prod.fst).any p.isSuffixOf

/-- What stands at a place. -/
def entry? (p : Place) : Option Entry :=
  t.entries.lookup p <|> if t.surrounds p then some .directory else none

/-- The place that a directory and one part of a path lead to; whether anything stands there is
seen when it is used. -/
def step (p : Place) (part : String) : Except ReadFailure Place :=
  match t.entry? p with
  | none => .error .notFound
  | some (.file _) => .error .notDirectory
  | some .directory =>
    if part = "" ∨ part = "." then .ok p
    else if part = ".." then .ok p.tail
    else if nameLimit < part.utf8ByteSize then .error .nameTooLong
    else .ok (part :: p)

/-- The content of the file at a place. -/
def content (p : Place) : Except ReadFailure Bytes :=
  match t.entry? p with
  | none => .error .notFound
  | some .directory => .error .isDirectory
  | some (.file bytes) => .ok bytes

/-- Where a path starts. -/
def start (path : String) : Place := if path.toList.head? = some '/' then [] else t.home

/-- The content of the file that a path leads to. -/
def lookup (path : String) : Except ReadFailure Bytes :=
  if path = "" then .error .notFound
  else if pathLimit < path.utf8ByteSize then .error .nameTooLong
  else (pathParts path).foldlM t.step (t.start path) >>= t.content

example : (⟨["home"], [(["p", "home"], .file [65]), (["d", "home"], .directory)]⟩ : FileTree).lookup
    "d/.././p" = .ok [65] := rfl

example : (⟨["home"], [(["p", "home"], .file [65])]⟩ : FileTree).lookup "p/" =
    .error .notDirectory := rfl

end FileTree

end Mnemonic.CommandLine
