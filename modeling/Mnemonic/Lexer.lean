import Mnemonic.Catalog.Standard
import Mnemonic.Segment.Reading
import Mnemonic.Segment.Tokens

/-!
# Lexer — a source read token by token

A lexer holds the unread rest of a source and the tokens of the last word that have not been handed
out.  `next` hands out one item, a token or the error that ends the reading; the other ways of
reading (`take`, `drain`, `count`, `collect`, `readAll`) ask for items or for tokens one by one.
Each brings the end closer (`remaining_next_lt`), so all of them stop.
-/

namespace Mnemonic

/-! ## Errors -/

/-- Why a source cannot be read; lines and columns are counted from `1`. -/
inductive LexError
  /-- The source ends after the at sign at this place. -/
  | unterminatedChar (line column : Nat)
  /-- The source does not close the string literal that opens at this place. -/
  | unterminatedString (line column : Nat)
  /-- The source is longer than positions can count. -/
  | overflow (cause : Overflow)
  deriving DecidableEq, Repr

namespace LexError

/-- The wording of an error. -/
def message : LexError → String
  | unterminatedChar line column =>
    "Expected character after '@' at line " ++ toString line ++ ", column " ++ toString column
  | unterminatedString line column =>
    "Unterminated string literal at line " ++ toString line ++ ", column " ++ toString column
  | overflow cause => cause.message

/-- The error for a literal that begins at `p`. -/
def unterminated (p : Position) (u : Unterminated) : LexError :=
  match p.lineNumber, p.columnNumber, u with
  | .ok line, .ok column, .char => unterminatedChar line column
  | .ok line, .ok column, .string => unterminatedString line column
  | .error cause, _, _ => overflow cause
  | _, .error cause, _ => overflow cause

end LexError

/-! ## States -/

/-- A source that is being read. -/
structure Lexer where
  /-- The instructions that words are resolved against. -/
  catalog : Catalog
  /-- What to do with a string literal that is not closed. -/
  policy : StringPolicy
  /-- The characters not yet read. -/
  rest : List Char
  /-- The place before `rest`. -/
  position : Position
  /-- Tokens that have been read but not handed out. -/
  pending : List Token
  /-- Whether an error has ended the reading. -/
  failed : Bool

/-- What a lexer hands out. -/
abbrev Item := Except LexError Token

namespace Lexer

/-- A lexer at the start of a source. -/
def ofSource (catalog : Catalog) (policy : StringPolicy) (source : String) : Lexer :=
  ⟨catalog, policy, source.toList, .origin, [], false⟩

/-- Read the segment at the start of the rest `c :: cs`; its tokens become the pending ones. -/
def readSegment (l : Lexer) (c : Char) (cs : List Char) : Except LexError Lexer := do
  let (segment, rest) ← (Segment.read l.policy c cs).mapError (.unterminated l.position)
  let stop ← (l.position.walk segment.text).mapError .overflow
  let pending ← (segment.tokens l.catalog ⟨l.position, stop⟩).mapError .overflow
  return { l with rest, position := stop, pending }

/-- The lexer after an error.  In search of its end a string literal has been read to the end of the
source; a character literal has not been begun. -/
def fail (l : Lexer) (e : LexError) : Lexer :=
  match e, l.position.walk l.rest with
  | .unterminatedString _ _, .ok stop => { l with rest := [], position := stop, failed := true }
  | _, _ => { l with failed := true }

@[simp] theorem failed_fail (l : Lexer) (e : LexError) : (l.fail e).failed = true := by
  unfold fail
  split <;> rfl

@[simp] theorem pending_fail (l : Lexer) (e : LexError) : (l.fail e).pending = l.pending := by
  unfold fail
  split <;> rfl

theorem fail_unterminatedString {l : Lexer} {line column : Nat} {stop : Position}
    (h : l.position.walk l.rest = .ok stop) :
    l.fail (.unterminatedString line column) =
      { l with rest := [], position := stop, failed := true } := by
  unfold fail
  rw [h]

/-- An upper bound on the number of items still to come. -/
def remaining (l : Lexer) : Nat :=
  if l.failed then 0 else l.rest.length + l.pending.length

/-- Reading a segment shortens the rest by at least as much as it adds to the pending tokens. -/
theorem readSegment_ok {l l' : Lexer} {c : Char} {cs : List Char}
    (h : l.readSegment c cs = .ok l') :
    l'.rest.length < cs.length + 1 ∧ l'.rest.length + l'.pending.length ≤ cs.length + 1 := by
  obtain ⟨⟨s, rest⟩, hread, h⟩ := bind_eq_ok_iff.1 h
  obtain ⟨stop, _, h⟩ := bind_eq_ok_iff.1 h
  obtain ⟨ts, htokens, h⟩ := bind_eq_ok_iff.1 h
  obtain ⟨htext, hfits⟩ := Segment.of_read (mapError_eq_ok_iff.1 hread)
  have hne := hfits.text_ne_nil
  have hpos := List.length_pos_iff.2 hne
  have hts := Segment.length_tokens_le (mapError_eq_ok_iff.1 htokens) hne
  have hlen := congrArg List.length htext
  rw [List.length_append, List.length_cons] at hlen
  rw [← Except.ok.inj h]
  exact ⟨show rest.length < _ by omega, show rest.length + ts.length ≤ _ by omega⟩

/-! ## One item -/

/-- The next item and the lexer after it; no item at the end of the source, nor after an error. -/
def next (l : Lexer) : Option Item × Lexer :=
  if l.failed then (none, l)
  else
    match l.pending with
    | t :: ts => (some (.ok t), { l with pending := ts })
    | [] =>
      match _hr : l.rest with
      | [] => (none, l)
      | c :: cs =>
        match _hs : l.readSegment c cs with
        | .error e => (some (.error e), l.fail e)
        | .ok l' => l'.next
termination_by l.rest.length
decreasing_by
  rw [_hr]
  exact (readSegment_ok _hs).1

/-- The next token, with the error in its place; no token at the end. -/
def nextToken (l : Lexer) : Except LexError (Option Token) × Lexer :=
  match l.next with
  | (none, l') => (.ok none, l')
  | (some (.ok t), l') => (.ok (some t), l')
  | (some (.error e), l') => (.error e, l')

/-- Asking for a token asks for the item that it is. -/
theorem next_of_nextToken {l l' : Lexer} {r : Except LexError (Option Token)}
    (h : l.nextToken = (r, l')) :
    l.next = (match r with
      | .ok none => none
      | .ok (some t) => some (.ok t)
      | .error e => some (.error e), l') := by
  rcases hnext : l.next with ⟨_ | e | t, l₁⟩ <;>
    · rw [nextToken, hnext] at h
      cases h
      rfl

theorem remaining_le (l : Lexer) : l.remaining ≤ l.rest.length + l.pending.length := by
  unfold remaining
  split <;> omega

/-- **Every item brings the end closer.** -/
theorem remaining_next_lt {l l' : Lexer} {i : Item} (h : l.next = (some i, l')) :
    l'.remaining < l.remaining := by
  fun_induction next l with
  | case1 l hf => simp at h
  | case2 l hf t ts hp =>
    cases h
    simp [remaining, hf, hp]
  | case3 => simp at h
  | case4 l hf hp c cs hr e hs =>
    cases h
    have hl : l.remaining = cs.length + 1 := by simp [remaining, hf, hp, hr]
    rw [hl, remaining, if_pos (failed_fail l e)]
    omega
  | case5 l hf hp c cs hr l₁ hs ih =>
    have hlt := ih h
    have hle := (readSegment_ok hs).2
    have hrem := remaining_le l₁
    have hl : l.remaining = cs.length + 1 := by simp [remaining, hf, hp, hr]
    omega

/-! ## Many items -/

/-- At most `n` items, stopping at the end. -/
def take : Lexer → Nat → List Item × Lexer
  | l, 0 => ([], l)
  | l, n + 1 =>
    match l.next with
    | (none, l') => ([], l')
    | (some i, l') =>
      let (is, l'') := l'.take n
      (i :: is, l'')

/-- All items still to come. -/
def drain (l : Lexer) : List Item × Lexer :=
  match _h : l.next with
  | (none, l') => ([], l')
  | (some i, l') =>
    let (is, l'') := l'.drain
    (i :: is, l'')
termination_by l.remaining
decreasing_by exact remaining_next_lt _h

/-- The number of items still to come. -/
def count (l : Lexer) : Nat × Lexer :=
  match _h : l.next with
  | (none, l') => (0, l')
  | (some _, l') =>
    let (n, l'') := l'.count
    (n + 1, l'')
termination_by l.remaining
decreasing_by exact remaining_next_lt _h

/-- The tokens still to come, or the error that ends them. -/
def collect (l : Lexer) : Except LexError (List Token) × Lexer :=
  match _h : l.next with
  | (none, l') => (.ok [], l')
  | (some (.error e), l') => (.error e, l')
  | (some (.ok t), l') =>
    let (ts, l'') := l'.collect
    (ts.map (t :: ·), l'')
termination_by l.remaining
decreasing_by exact remaining_next_lt _h

/-- The tokens still to come, asked for one after the other, or the error that ends them. -/
def readAll (l : Lexer) : Except LexError (List Token) :=
  match _h : l.nextToken with
  | (.ok none, _) => .ok []
  | (.ok (some t), l') => l'.readAll.map (t :: ·)
  | (.error e, _) => .error e
termination_by l.remaining
decreasing_by exact remaining_next_lt (next_of_nextToken _h)

end Lexer

/-- The tokens of a whole source. -/
def tokenize (C : Catalog) (policy : StringPolicy) (source : String) :
    Except LexError (List Token) :=
  (Lexer.ofSource C policy source).readAll

end Mnemonic
