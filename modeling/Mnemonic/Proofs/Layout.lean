import Mathlib.Data.List.Forall2
import Mnemonic.Proofs.Shown
import Mnemonic.Proofs.Unfinished

/-!
# Proofs/Layout — blanks and comments leave no trace but places

Two sources have the same **layout apart** when their segments correspond one to one and differ only
where a blank stands against a blank or a comment against a comment.  Both are read as tokens that
show the same, or both end in an error of one kind (`tokenize_layout`).  Comments do not even move
anything, as long as no offset is counted: a comment that a line break ends leaves the reading at
the first column of the next line, whatever it says (`place_reached_line`).
-/

namespace Mnemonic

open List (Forall₂)
open Position (reached)
open Segment (Leads Ends)

/-! ## Places without offsets -/

/-- The line and the column of a place. -/
def Position.place (p : Position) : Nat × Nat := (p.line, p.column)

/-- What a token shows, and the lines and columns at which it begins and ends. -/
def Token.placed (t : Token) : (Kind × String) × (Nat × Nat) × (Nat × Nat) :=
  (t.shown, t.span.start.place, t.span.stop.place)

namespace Position

variable {as bs : List Char}

/-- Texts that end at the same line and column still do when both go on with the same text. -/
theorem place_reached_append (h : (reached bs).place = (reached as).place) (cs : List Char) :
    (reached (bs ++ cs)).place = (reached (as ++ cs)).place := by
  obtain ⟨hline, hcolumn⟩ := Prod.mk.inj h
  rw [place, place, reached_append, reached_append, shift, shift, hline, hcolumn]

/-- Behind a line break only the number of the line before it counts. -/
theorem place_reached_line {line : List Char} (h : '\n' ∉ line) :
    (reached (as ++ (line ++ ['\n']))).place = ((reached as).line + 1, 0) := by
  have hcount : line.count '\n' = 0 := List.count_eq_zero.2 h
  simp [place, reached, hcount]

end Position

/-! ## Segments that correspond -/

namespace Segment

/-- Whether two segments are the same, or are two blanks, or two comments that end alike. -/
inductive SameButLayout : Segment → Segment → Prop
  | refl (s : Segment) : SameButLayout s s
  | blank (c d : Char) : SameButLayout (.blank c) (.blank d)
  | comment (body body' : List Char) (closed : Bool) :
      SameButLayout (.comment body closed) (.comment body' closed)

/-- Whether two segments are the same, or are two comments that end alike. -/
inductive SameButComments : Segment → Segment → Prop
  | refl (s : Segment) : SameButComments s s
  | comment (body body' : List Char) (closed : Bool) :
      SameButComments (.comment body closed) (.comment body' closed)

variable {C : Catalog} {policy : StringPolicy} {cs cs' left before before' : List Char}
  {ss tt : List Segment}

/-- Segments that correspond show the same. -/
theorem SameButLayout.map_shown_lexemes {s t : Segment} (h : SameButLayout s t) :
    (t.lexemes C).map Lexeme.shown = (s.lexemes C).map Lexeme.shown := by
  match h with
  | .refl _ | .blank _ _ | .comment _ _ _ => rfl

/-- **Rows of segments that correspond show the same**, wherever they stand. -/
theorem map_shown_row_of_sameButLayout (h : Forall₂ SameButLayout ss tt) :
    (row C before' tt).map Token.shown = (row C before ss).map Token.shown := by
  rw [map_shown_row, map_shown_row]
  induction h with
  | nil => rfl
  | cons hs _ ih => rw [List.flatMap_cons, List.flatMap_cons, hs.map_shown_lexemes, ih]

end Segment

/-- Lexemes behind texts that end at the same line and column have the same lines and columns. -/
theorem Lexeme.map_placed_row {before before' : List Char}
    (h : (reached before').place = (reached before).place) (xs : List Lexeme) :
    (row before' xs).map Token.placed = (row before xs).map Token.placed := by
  induction xs generalizing before before' with
  | nil => rfl
  | cons x xs ih =>
    have hstop := Position.place_reached_append h x.part
    have htoken : (x.token before').placed = (x.token before).placed := by
      change (x.shown, (reached before').place, (reached (before' ++ x.part)).place) = _
      rw [h, hstop]
      rfl
    rw [row, row, List.map_cons, List.map_cons, htoken, ih hstop]

namespace Segment

variable {C : Catalog} {policy : StringPolicy} {cs cs' left before before' : List Char}
  {ss tt : List Segment}

/-- Behind a comment with its line break begins the next line. -/
theorem place_reached_comment {body rest : List Char} (h : (comment body true).Fits policy rest) :
    (reached (before ++ (comment body true).text)).place = ((reached before).line + 1, 0) := by
  match h with
  | .comment hb =>
    have hline : '\n' ∉ '#' :: body := fun hmem =>
      (List.mem_cons.1 hmem).elim (by decide) hb
    exact Position.place_reached_line hline

/-- Nothing stands behind a comment without a line break. -/
theorem Fits.eq_nil_of_open {body rest : List Char}
    (h : (Segment.comment body false).Fits policy rest) (hleads : Leads policy rest ss left) :
    ss = [] ∧ left = [] := by
  match h with
  | .lastComment _ =>
    obtain ⟨-, rfl⟩ := List.append_eq_nil_iff.1 hleads.text_eq
    exact ⟨(factors_iff_leads.2 hleads).unique .nil, rfl⟩

/-- **Comments move no token to another line or column**, nor what follows the segments. -/
theorem map_placed_row_of_sameButComments (hsame : Forall₂ SameButComments ss tt)
    (h : Leads policy cs ss left) (h' : Leads policy cs' tt left)
    (hplace : (reached before').place = (reached before).place) :
    (row C before' tt).map Token.placed = (row C before ss).map Token.placed ∧
      (left ≠ [] → (reached (before' ++ tt.flatMap text)).place =
        (reached (before ++ ss.flatMap text)).place) := by
  induction hsame generalizing cs cs' before before' with
  | nil =>
    rw [List.flatMap_nil, List.append_nil, List.append_nil]
    exact ⟨rfl, fun _ => hplace⟩
  | @cons s t ss tt hs _ ih =>
    cases h with | @cons _ rest _ _ hfits hleads => ?_
    cases h' with | @cons _ rest' _ _ hfits' hleads' => ?_
    rw [row, row, List.map_append, List.map_append, List.flatMap_cons, List.flatMap_cons,
      ← List.append_assoc, ← List.append_assoc]
    cases hs with
    | refl =>
      obtain ⟨hrow, hend⟩ := ih hleads hleads' (Position.place_reached_append hplace s.text)
      exact ⟨by rw [Lexeme.map_placed_row hplace, hrow], hend⟩
    | comment body body' closed =>
      cases closed with
      | true =>
        have hline : (reached (before' ++ (comment body' true).text)).place =
            (reached (before ++ (comment body true).text)).place := by
          rw [place_reached_comment hfits, place_reached_comment hfits', (Prod.mk.inj hplace).1]
        exact ih hleads hleads' hline
      | false =>
        -- Such a comment reaches to the end of both sources.
        obtain ⟨rfl, rfl⟩ := hfits.eq_nil_of_open hleads
        obtain ⟨rfl, -⟩ := hfits'.eq_nil_of_open hleads'
        exact ⟨rfl, fun hne => absurd rfl hne⟩

end Segment

/-! ## Sources that correspond -/

/-- **Blanks and comments leave no trace but places.**  Two sources whose segments are the same but
for blanks against blanks and comments against comments are read as tokens that show the same, and
so translated to the same text, or both are refused for the same kind of literal.  If only comments
differ, every line and every column is the same too. -/
theorem tokenize_layout {C : Catalog} {policy : StringPolicy} {source source' : String}
    {ss tt : List Segment} {left : List Char} (hlen : source.length ≤ wordMax)
    (hlen' : source'.length ≤ wordMax) (h : Leads policy source.toList ss left)
    (h' : Leads policy source'.toList tt left) (hends : Ends policy left)
    (hlayout : Forall₂ Segment.SameButLayout ss tt) :
    (left = [] → ∃ ts us, tokenize C policy source = .ok ts ∧ tokenize C policy source' = .ok us ∧
      us.map Token.shown = ts.map Token.shown ∧ assemble us = assemble ts ∧
      (Forall₂ Segment.SameButComments ss tt → us.map Token.placed = ts.map Token.placed)) ∧
    (left ≠ [] → ∃ u line column line' column',
      tokenize C policy source = .error (.unfinished u line column) ∧
      tokenize C policy source' = .error (.unfinished u line' column') ∧
      (Forall₂ Segment.SameButComments ss tt → line' = line ∧ column' = column)) := by
  have hshown : (Segment.row C [] tt).map Token.shown = (Segment.row C [] ss).map Token.shown :=
    Segment.map_shown_row_of_sameButLayout hlayout
  have hstart : (reached []).place = (reached []).place := rfl
  have hplaced := fun hsame : Forall₂ Segment.SameButComments ss tt =>
    Segment.map_placed_row_of_sameButComments (C := C) hsame h h' hstart
  constructor
  · rintro rfl
    refine ⟨_, _, tokenize_of_factors hlen (Segment.factors_iff_leads.2 h),
      tokenize_of_factors hlen' (Segment.factors_iff_leads.2 h'), hshown, assemble_congr hshown,
      fun hsame => (hplaced hsame).1⟩
  · intro hne
    obtain ⟨u, hu⟩ := hends.resolve_left hne
    refine ⟨u, _, _, _, _, tokenize_eq_unfinished_of_leads hlen h hu,
      tokenize_eq_unfinished_of_leads hlen' h' hu, fun hsame => ?_⟩
    obtain ⟨hline, hcolumn⟩ := Prod.mk.inj ((hplaced hsame).2 hne)
    rw [List.nil_append, List.nil_append] at hline hcolumn
    exact ⟨congrArg (· + 1) hline, congrArg (· + 1) hcolumn⟩

/-- A quote and an at sign open nothing in a comment, and a tab stands as well as a line break. -/
theorem tokenize_layout_marks :
    ∃ ts us, tokenize .standard .reject "#\"\n\t)" = .ok ts ∧
      tokenize .standard .reject "#7@\n\n)" = .ok us ∧ us.map Token.shown = ts.map Token.shown ∧
      assemble us = assemble ts := by
  have hleads : ∀ body c, '\n' ∉ body → isBlank c = true →
      Leads .reject (('#' :: (body ++ ['\n'])) ++ ([c] ++ [')']))
        [.comment body true, .blank c, .paren ')'] [] := fun _ _ hb hc =>
    .cons (.comment hb) (.cons (.blank hc) (.cons (.paren (.inr rfl)) .nil))
  have h : Leads .reject "#\"\n\t)".toList [.comment ['"'] true, .blank '\t', .paren ')'] [] := by
    rw [String.toList_ofList]
    exact hleads ['"'] '\t' (by decide) (by decide)
  have h' : Leads .reject "#7@\n\n)".toList
      [.comment ['7', '@'] true, .blank '\n', .paren ')'] [] := by
    rw [String.toList_ofList]
    exact hleads ['7', '@'] '\n' (by decide) (by decide)
  have hlayout := Forall₂.cons (Segment.SameButLayout.comment ['"'] ['7', '@'] true)
    (.cons (.blank '\t' '\n') (.cons (.refl (.paren ')')) .nil))
  obtain ⟨ts, us, hts, hus, hshown, htext, -⟩ :=
    (tokenize_layout (by decide +kernel) (by decide +kernel) h h' (.inl rfl) hlayout).1 rfl
  exact ⟨ts, us, hts, hus, hshown, htext⟩

end Mnemonic
