import Mnemonic.Proofs.Stream

/-!
# Proofs/Concatenation — a source cut between two segments

Two texts put together are read as the first and then the second, with the places of the second
shifted to the end of the first, when the first is complete by itself and its last segment does not
go on in the second (`tokenize_append`).
-/

namespace Mnemonic

open Position (reached)
open Segment (Factors Leads)

/-! ## Shifted tokens and errors -/

/-- The token `t` of a text that begins at `p`. -/
def Token.shift (p : Position) (t : Token) : Token :=
  { t with span := ⟨p.shift t.span.start, p.shift t.span.stop⟩ }

/-- The error `e` of a text that begins at `p`; lines and columns count from `1`. -/
def LexError.shift (p : Position) : LexError → LexError
  | unterminatedChar line column =>
    unterminatedChar (line + p.line) (if line = 1 then column + p.column else column)
  | unterminatedString line column =>
    unterminatedString (line + p.line) (if line = 1 then column + p.column else column)
  | overflow cause => overflow cause

variable {C : Catalog} {policy : StringPolicy} {cs : List Char}

theorem Lexeme.row_shift (xs : List Lexeme) (first before : List Char) :
    row (first ++ before) xs = (row before xs).map (.shift (reached first)) := by
  induction xs generalizing before with
  | nil => rfl
  | cons x xs ih =>
    have htoken : x.token (first ++ before) = (x.token before).shift (reached first) := by
      simp only [token, Span.over, Token.shift, List.append_assoc, Position.reached_append first]
    rw [row, row, List.map_cons, List.append_assoc, ih, htoken]

/-- **The tokens of segments that stand further on are shifted.** -/
theorem Segment.row_shift (ss : List Segment) (first before : List Char) :
    row C (first ++ before) ss = (row C before ss).map (.shift (reached first)) := by
  induction ss generalizing before with
  | nil => rfl
  | cons s ss ih =>
    rw [row, row, List.map_append, List.append_assoc, ih, Lexeme.row_shift]

/-- A word can count the line and the column of a place in a text that it can count. -/
theorem LexError.unterminated_reached (h : cs.length < wordMax) (u : Unterminated) :
    unterminated (reached cs) u =
      match u with
      | .char => unterminatedChar ((reached cs).line + 1) ((reached cs).column + 1)
      | .string => unterminatedString ((reached cs).line + 1) ((reached cs).column + 1) := by
  have hline : (reached cs).lineNumber = .ok ((reached cs).line + 1) :=
    wordAdd_of_le (Nat.le_trans (Nat.succ_le_succ List.count_le_length) h)
  have hcolumn : (reached cs).columnNumber = .ok ((reached cs).column + 1) :=
    wordAdd_of_le (Nat.le_trans (Nat.succ_le_succ (Position.column_reached_le cs)) h)
  unfold unterminated
  rw [hline, hcolumn]
  rcases u with _ | _ <;> rfl

/-- **The error of a literal that stands further on is shifted.** -/
theorem LexError.unterminated_append {first : List Char} (h : (first ++ cs).length < wordMax)
    (u : Unterminated) :
    unterminated (reached (first ++ cs)) u =
      (unterminated (reached cs) u).shift (reached first) := by
  have hcs : cs.length < wordMax := by
    rw [List.length_append] at h
    omega
  have hline : (reached (first ++ cs)).line + 1 = (reached cs).line + 1 + (reached first).line := by
    rw [Position.reached_append, Position.shift_line]
    omega
  have hcolumn : (reached (first ++ cs)).column + 1 =
      if (reached cs).line + 1 = 1 then (reached cs).column + 1 + (reached first).column
      else (reached cs).column + 1 := by
    rw [Position.reached_append, Position.shift_column]
    split <;> split <;> omega
  rw [unterminated_reached h, unterminated_reached hcs]
  rcases u with _ | _
  · exact congr (congrArg unterminatedChar hline) hcolumn
  · exact congr (congrArg unterminatedString hline) hcolumn

/-! ## The last token -/

/-- The last token of some lexemes ends where these do, and has the kind of one of them. -/
theorem Lexeme.exists_getLast?_row {xs : List Lexeme} (hxs : xs ≠ []) (before : List Char) :
    ∃ t ∈ (row before xs).getLast?,
      t.span.stop = reached (before ++ xs.flatMap part) ∧ ∃ x ∈ xs, t.kind = x.kind := by
  induction xs generalizing before with
  | nil => exact absurd rfl hxs
  | cons x xs ih =>
    rw [List.flatMap_cons, ← List.append_assoc, row]
    rcases xs with _ | ⟨y, xs⟩
    · refine ⟨x.token before, rfl, ?_, x, List.mem_cons_self, rfl⟩
      rw [List.flatMap_nil, List.append_nil]
      rfl
    · obtain ⟨t, ht, hstop, z, hz, hkind⟩ := ih (List.cons_ne_nil y xs) (before ++ x.part)
      refine ⟨t, ?_, hstop, z, List.mem_cons_of_mem x hz, hkind⟩
      rw [row] at ht ⊢
      rwa [List.getLast?_cons_cons]

namespace Segment

/-- A segment that stands for something ends where its last token does. -/
theorem exists_getLast?_row {s : Segment} {ss : List Segment} (hcomment : s.isComment = false)
    (htext : s.text ≠ []) :
    ∃ t ∈ (row C [] (ss ++ [s])).getLast?,
      t.span.stop.offset = ((ss ++ [s]).flatMap text).length ∧
        ∃ x ∈ s.lexemes C, t.kind = x.kind := by
  obtain ⟨t, ht, hstop, hx⟩ :=
    Lexeme.exists_getLast?_row (lexemes_ne_nil hcomment htext) (ss.flatMap text)
  refine ⟨t, ?_, ?_, hx⟩
  · rw [row_append, List.getLast?_append]
    change t ∈ (Lexeme.row (ss.flatMap text) (s.lexemes C) ++ []).getLast?.or _
    rw [List.append_nil, Option.mem_def.1 ht]
    rfl
  · rw [hstop, flatMap_part_lexemes C hcomment, List.flatMap_append, List.flatMap_singleton]
    rfl

/-- Whether a last token of the given kind, if it ends where the text `cs` does, has only a
character with `p` behind it, or nothing. -/
def EndsBefore (kind : Token.Kind) (p : Char → Prop) (ts : List Token) (cs more : List Char) :
    Prop :=
  ∀ t ∈ ts.getLast?, t.kind = kind → t.span.stop.offset = cs.length → ∀ c ∈ more.head?, p c

/-- **The last segment of a text fits before what follows**, if what follows does not go on with
it. -/
theorem fits_of_factors {more : List Char} {ss : List Segment} (h : Factors .reject cs ss)
    (hcomment : ∀ tt body, ¬ Factors .reject cs (tt ++ [comment body false]))
    (hnumber : EndsBefore .number (·.isDigit = false) (row C [] ss) cs more)
    (hword : EndsBefore .operator (isDelimiter · = true) (row C [] ss) cs more) :
    ∀ s ∈ ss.getLast?, s.Fits policy more := by
  intro s hs
  obtain ⟨tt, rfl⟩ := List.getLast?_eq_some_iff.1 hs
  obtain ⟨rest, hfits⟩ := exists_fits_of_mem h List.mem_concat_self
  have hlast : s.isComment = false → ∃ t ∈ (row C [] (tt ++ [s])).getLast?,
      t.span.stop.offset = cs.length ∧ ∃ x ∈ s.lexemes C, t.kind = x.kind := fun hc =>
    h.text_eq ▸ exists_getLast?_row hc hfits.text_ne_nil
  refine hfits.before ?_ ?_ ?_
  · rintro body rfl
    exact hcomment _ _ h
  · rintro digits rfl
    obtain ⟨t, ht, hstop, x, hx, hkind⟩ := hlast rfl
    obtain rfl := List.mem_singleton.1 hx
    exact hnumber t ht hkind hstop
  · rintro run rfl
    obtain ⟨t, ht, hstop, x, hx, hkind⟩ := hlast rfl
    obtain ⟨p, -, rfl⟩ := List.mem_map.1 hx
    exact hword t ht hkind hstop

end Segment

/-! ## Two texts -/

open Segment (EndsBefore)

/-- **A complete text does not change how the text behind it is read**: the tokens of the second
follow those of the first, and its error is the error, at places shifted to the end of the first. -/
theorem tokenize_append {first second : String} {ts : List Token}
    (hlen : (first ++ second).length ≤ wordMax) (hfirst : tokenize C .reject first = .ok ts)
    (hcomment : ∀ ss body, ¬ Factors .reject first.toList (ss ++ [.comment body false]))
    (hnumber : EndsBefore .number (·.isDigit = false) ts first.toList second.toList)
    (hword : EndsBefore .operator (isDelimiter · = true) ts first.toList second.toList) :
    (∀ us, tokenize C policy second = .ok us →
      tokenize C policy (first ++ second) =
        .ok (ts ++ us.map (.shift (reached first.toList)))) ∧
    ∀ e, tokenize C policy second = .error e →
      tokenize C policy (first ++ second) = .error (e.shift (reached first.toList)) := by
  obtain ⟨-, ss, hss, rfl⟩ := tokenize_eq_row_iff.1 hfirst
  have hleads : Leads policy (first ++ second).toList ss second.toList := by
    rw [String.toList_append]
    exact Segment.leads_append_of_factors hss
      (Segment.fits_of_factors hss hcomment hnumber hword)
  constructor
  · intro us hsecond
    obtain ⟨-, tt, htt, rfl⟩ := tokenize_eq_row_iff.1 hsecond
    have hboth := hleads.append (Segment.factors_iff_leads.1 htt)
    have hshift := Segment.row_shift (C := C) tt first.toList []
    rw [List.append_nil] at hshift
    rw [tokenize_of_factors hlen (Segment.factors_iff_leads.2 hboth), Segment.row_append,
      List.nil_append, hss.text_eq, hshift]
  · intro e hsecond
    have hlen' : second.length ≤ wordMax := by
      rw [String.length_append] at hlen
      omega
    obtain ⟨tt, left, u, htt, hu, rfl⟩ := (tokenize_eq_error_iff hlen').1 hsecond
    have hboth := hleads.append htt
    have hplace := hboth.length_lt hu.ne_nil
    rw [List.flatMap_append, hss.text_eq, String.length_toList] at hplace
    rw [tokenize_of_unreadable hlen hboth hu, List.flatMap_append, hss.text_eq,
      LexError.unterminated_append (Nat.lt_of_lt_of_le hplace hlen)]

/-- A number may be followed by a word, and the error of that is counted on from the number. -/
theorem tokenize_append_error :
    tokenize .standard .reject ("\"\n\"7" ++ "rev@") = .error (.unterminatedChar 2 6) := by
  have hcomment : ∀ ss body,
      ¬ Factors .reject "\"\n\"7".toList (ss ++ [.comment body false]) := by
    intro ss body h
    have hmem : '#' ∈ "\"\n\"7".toList := h.text_eq ▸ by simp [Segment.text]
    exact absurd hmem (by decide +kernel)
  have hfirst : tokenize .standard .reject "\"\n\"7" =
      .ok [⟨.string, "\"\n\"", ⟨⟨0, 0, 0⟩, ⟨3, 1, 1⟩⟩⟩,
        ⟨.number, "7", ⟨⟨3, 1, 1⟩, ⟨4, 1, 2⟩⟩⟩] := by
    decide +kernel
  have hsecond : tokenize .standard .reject "rev@" = .error (.unterminatedChar 1 4) := by
    decide +kernel
  have hlen : ("\"\n\"7" ++ "rev@").length ≤ wordMax := by decide +kernel
  refine ((tokenize_append hlen hfirst hcomment ?_ ?_).2 _ hsecond).trans (by decide +kernel)
  · intro t _ _ _ c hc
    rw [String.toList_ofList] at hc
    obtain rfl := Option.some.inj hc
    decide
  · intro t ht hkind
    obtain rfl := Option.some.inj ht
    exact absurd hkind (by decide)

end Mnemonic
