import Mnemonic.Proofs.Operators
import Mnemonic.Segment.Grammar
import Mnemonic.Segment.Tokens

/-!
# Proofs/Lexeme — the tokens of a row of segments, read off the text

A **lexeme** is a stretch of a source that one token stands for.  Where the stretches stand decides
the spans, so the tokens of a row of segments are a function of the text alone (`Segment.row`); the
checked counting agrees with it as long as a word can count the text (`Segment.tokens_over`).
-/

namespace Mnemonic

open Position (reached)

/-- What a token shows: its kind and its text. -/
def Token.shown (t : Token) : Token.Kind × String := (t.kind, t.text)

/-- A part of a source that one token stands for. -/
structure Lexeme extends Piece where
  kind : Token.Kind
  deriving DecidableEq, Repr

namespace Lexeme

/-- A piece of a word. -/
def operator (p : Piece) : Lexeme := ⟨p, .operator⟩

/-- A part of a source that is printed as it stands. -/
def verbatim (kind : Token.Kind) (text : List Char) : Lexeme := ⟨⟨text, .ofList text⟩, kind⟩

/-- The characters of a lexeme. -/
abbrev part (x : Lexeme) : List Char := x.source

/-- The token of a lexeme that stands after the text `before`. -/
def token (before : List Char) (x : Lexeme) : Token :=
  ⟨x.kind, x.output, .over before x.part⟩

/-- The tokens of consecutive lexemes, the first of which stands after the text `before`. -/
def row (before : List Char) : List Lexeme → List Token
  | [] => []
  | x :: xs => x.token before :: row (before ++ x.part) xs

theorem row_append (xs ys : List Lexeme) (before : List Char) :
    row before (xs ++ ys) = row before xs ++ row (before ++ xs.flatMap part) ys := by
  induction xs generalizing before with
  | nil => rw [List.flatMap_nil, List.append_nil]; rfl
  | cons x xs ih =>
    rw [List.cons_append, row, ih, row, List.cons_append, List.flatMap_cons, List.append_assoc]

/-- What the token of a lexeme shows, wherever it stands. -/
def shown (x : Lexeme) : Token.Kind × String := (x.kind, x.output)

theorem map_shown_row (xs : List Lexeme) (before : List Char) :
    (row before xs).map Token.shown = xs.map shown := by
  induction xs generalizing before with
  | nil => rfl
  | cons x xs ih =>
    rw [row, List.map_cons, List.map_cons, ih]
    rfl

/-- On one line, the text gives the operators of pieces the places that counting gives them. -/
theorem row_map_operator {ps : List Piece} {before : List Char} (hline : '\n' ∉ Piece.text ps) :
    row before (ps.map operator) = Piece.row (reached before) ps := by
  induction ps generalizing before with
  | nil => rfl
  | cons p ps ih =>
    have hp : '\n' ∉ p.source := fun h => hline (List.mem_append_left _ h)
    have hps : '\n' ∉ Piece.text ps := fun h => hline (List.mem_append_right _ h)
    rw [List.map_cons, row, Piece.row, Piece.token, ← Position.reached_append_of_notMem before hp,
      ← ih hps]
    rfl

/-- **Placing the pieces of a run gives the tokens that the text gives.** -/
theorem place_eq_row {ps : List Piece} {before : List Char}
    (hline : '\n' ∉ (ps.map Piece.source).flatten)
    (hlen : before.length + (ps.map Piece.source).flatten.length ≤ wordMax) :
    Piece.place (reached before) ps = .ok (row before (ps.map operator)) := by
  rw [row_map_operator hline]
  exact Piece.place_of_hasRoom (Position.hasRoom_reached hlen)

end Lexeme

namespace Segment

/-! ## The lexemes of a segment -/

/-- What a segment stands for: comments for nothing, a word for its pieces, a blank for a space, and
every literal for itself. -/
def lexemes (C : Catalog) (s : Segment) : List Lexeme :=
  match s with
  | blank c => [⟨⟨[c], " "⟩, .space⟩]
  | comment _ _ => []
  | string _ _ => [.verbatim .string s.text]
  | char _ => [.verbatim .char s.text]
  | paren _ => [.verbatim .paren s.text]
  | bracket _ => [.verbatim .bracket s.text]
  | number _ => [.verbatim .number s.text]
  | word run => (C.pieces run).map .operator

/-- Whether a segment is a comment. -/
def isComment : Segment → Bool
  | comment _ _ => true
  | _ => false

/-- **The lexemes of a segment tile it**, unless it is a comment. -/
theorem flatMap_part_lexemes (C : Catalog) {s : Segment} (h : s.isComment = false) :
    (s.lexemes C).flatMap Lexeme.part = s.text := by
  match s, h with
  | blank _, _ | string _ _, _ | char _, _ | paren _, _ | bracket _, _ | number _, _ =>
    exact List.append_nil _
  | word run, _ =>
    change ((C.pieces run).map Lexeme.operator).flatMap Lexeme.part = run
    rw [List.flatMap_map]
    exact (List.flatMap_def ..).trans (C.flatten_pieces run)

/-- No lexeme of a segment is empty. -/
theorem part_ne_nil_of_mem_lexemes {C : Catalog} {s : Segment} {x : Lexeme}
    (hs : s.text ≠ []) (hx : x ∈ s.lexemes C) : x.part ≠ [] := by
  match s with
  | comment _ _ => exact nomatch hx
  | word run =>
    obtain ⟨p, hp, rfl⟩ := List.mem_map.1 hx
    exact Catalog.source_ne_nil_of_mem_pieces p hp
  | blank _ | string _ _ | char _ | paren _ | bracket _ | number _ =>
    obtain rfl := List.mem_singleton.1 hx
    exact hs

/-- What is not a comment stands for something. -/
theorem lexemes_ne_nil {C : Catalog} {s : Segment} (hcomment : s.isComment = false)
    (hs : s.text ≠ []) : s.lexemes C ≠ [] := by
  intro hnil
  have hparts := flatMap_part_lexemes C hcomment
  rw [hnil] at hparts
  exact hs hparts.symm

/-! ## Words stand on one line -/

theorem isDelimiter_newline : isDelimiter '\n' = true := by decide

/-- The lead of a word is a lambda or ends no word, and it is no digit. -/
theorem opensWord_iff {c : Char} :
    opensWord c = true ↔ (c = 'λ' ∨ isDelimiter c = false) ∧ c.isDigit = false := by
  simp only [opensWord, Bool.and_eq_true, Bool.or_eq_true, beq_iff_eq, Bool.not_eq_true']

/-- A word holds no delimiter but the lambda that can lead it. -/
theorem notMem_run_of_isDelimiter {policy : StringPolicy} {run rest : List Char} {d : Char}
    (h : (word run).Fits policy rest) (hd : isDelimiter d = true) (hne : d ≠ 'λ') : d ∉ run := by
  match h with
  | .word hc ht _ =>
    intro hmem
    rcases List.mem_cons.1 hmem with rfl | hmem
    · rcases (opensWord_iff.1 hc).1 with hlambda | hplain
      · exact hne hlambda
      · exact Bool.noConfusion (hd.symm.trans hplain)
    · exact Bool.noConfusion (hd.symm.trans (ht d hmem))

/-- A word holds no line break. -/
theorem newline_notMem_run {policy : StringPolicy} {run rest : List Char}
    (h : (word run).Fits policy rest) : '\n' ∉ run :=
  notMem_run_of_isDelimiter h isDelimiter_newline (by decide)

/-! ## Tokens -/

/-- **The tokens of a segment that fits are those of its lexemes**, as long as a word can count
it. -/
theorem tokens_over (C : Catalog) {policy : StringPolicy} {s : Segment} {before rest : List Char}
    (hs : s.Fits policy rest) (hlen : before.length + s.text.length ≤ wordMax) :
    s.tokens C (.over before s.text) = .ok (Lexeme.row before (s.lexemes C)) := by
  match s with
  | word run =>
    have hrun := C.flatten_pieces run
    exact Lexeme.place_eq_row (hrun.symm ▸ newline_notMem_run hs) (hrun.symm ▸ hlen)
  | blank _ | comment _ _ | string _ _ | char _ | paren _ | bracket _ | number _ => rfl

/-- The tokens of a row of segments that stands after the text `before`. -/
def row (C : Catalog) (before : List Char) : List Segment → List Token
  | [] => []
  | s :: ss => Lexeme.row before (s.lexemes C) ++ row C (before ++ s.text) ss

theorem row_append (C : Catalog) (ss tt : List Segment) (before : List Char) :
    row C before (ss ++ tt) = row C before ss ++ row C (before ++ ss.flatMap text) tt := by
  induction ss generalizing before with
  | nil => rw [List.flatMap_nil, List.append_nil]; rfl
  | cons s ss ih =>
    rw [List.cons_append, row, ih, row, List.append_assoc, List.flatMap_cons, List.append_assoc]

/-- **What the tokens of segments show does not depend on where they stand.** -/
theorem map_shown_row (C : Catalog) (ss : List Segment) (before : List Char) :
    (row C before ss).map Token.shown = ss.flatMap fun s => (s.lexemes C).map Lexeme.shown := by
  induction ss generalizing before with
  | nil => rfl
  | cons s ss ih => rw [row, List.map_append, Lexeme.map_shown_row, ih, List.flatMap_cons]

end Segment

end Mnemonic
