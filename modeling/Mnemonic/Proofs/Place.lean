import Mathlib.Data.List.TakeWhile
import Mnemonic.Position

/-!
# Proofs/Place — places in a text and in a longer one

A text that is part of a source has its own places, counted from its own start.  `shift` moves them
to where the text stands: offsets and lines always, columns on the first line only
(`reached_append`).  On one line a place only moves along, as far as words can count (`along`,
`HasRoom`).
-/

namespace Mnemonic

namespace Position

/-! ## Moving a place -/

/-- The place `q` of a text that begins at `p`. -/
def shift (p q : Position) : Position :=
  ⟨p.offset + q.offset, p.line + q.line, if q.line = 0 then p.column + q.column else q.column⟩

@[simp] theorem shift_line (p q : Position) : (p.shift q).line = p.line + q.line := rfl

@[simp] theorem shift_column (p q : Position) :
    (p.shift q).column = if q.line = 0 then p.column + q.column else q.column := rfl

theorem column_reached (cs : List Char) :
    (reached cs).column = (cs.reverse.takeWhile (· != '\n')).length := rfl

/-- Read from behind, a text without line breaks is passed as a whole. -/
theorem ne_newline_of_mem_reverse {cs : List Char} (h : '\n' ∉ cs) :
    ∀ c ∈ cs.reverse, (c != '\n') = true := fun _ hc =>
  bne_iff_ne.2 (ne_of_mem_of_not_mem (List.mem_reverse.1 hc) h)

/-- Without line breaks the column counts the whole text. -/
theorem column_reached_of_notMem {cs : List Char} (h : '\n' ∉ cs) :
    (reached cs).column = cs.length := by
  rw [column_reached, List.takeWhile_eq_self_iff.2 (ne_newline_of_mem_reverse h),
    List.length_reverse]

/-- Behind a line break, what stands before it does not matter to the column. -/
theorem column_reached_append_of_mem {as cs : List Char} (h : '\n' ∈ cs) :
    (reached (as ++ cs)).column = (reached cs).column := by
  have hstop : (cs.reverse.takeWhile (· != '\n')).length ≠ cs.reverse.length := by
    intro hlen
    have hself := (List.takeWhile_prefix (· != '\n')).eq_of_length hlen
    have hne := List.takeWhile_eq_self_iff.1 hself '\n' (List.mem_reverse.2 h)
    exact absurd hne (by decide)
  rw [column_reached, List.reverse_append, List.takeWhile_append, if_neg hstop, column_reached]

/-- Without line breaks the column is counted on. -/
theorem column_reached_append_of_notMem {as cs : List Char} (h : '\n' ∉ cs) :
    (reached (as ++ cs)).column = (reached as).column + (reached cs).column := by
  rw [column_reached, List.reverse_append,
    List.takeWhile_append_of_pos (ne_newline_of_mem_reverse h), List.length_append,
    List.length_reverse, column_reached_of_notMem h, Nat.add_comm, column_reached]

/-- **Reading on past a text shifts the places of what follows.** -/
theorem reached_append (as cs : List Char) :
    reached (as ++ cs) = (reached as).shift (reached cs) := by
  have hcolumn : (reached (as ++ cs)).column =
      if cs.count '\n' = 0 then (reached as).column + (reached cs).column
      else (reached cs).column := by
    by_cases hmem : '\n' ∈ cs
    · rw [if_neg (Nat.ne_of_gt (List.count_pos_iff.2 hmem)), column_reached_append_of_mem hmem]
    · rw [if_pos (List.count_eq_zero.2 hmem), column_reached_append_of_notMem hmem]
  ext
  · exact List.length_append
  · exact List.count_append
  · exact hcolumn

/-- A character that ends no line is one column more. -/
theorem reached_concat (cs : List Char) {c : Char} (hc : c ≠ '\n') :
    reached (cs ++ [c]) =
      ⟨(reached cs).offset + 1, (reached cs).line, (reached cs).column + 1⟩ := by
  simp [reached, hc]

/-! ## Steps along a line -/

variable {p : Position} {m n : Nat}

/-- The place `n` characters further on the same line, even if a word cannot count it. -/
def along (p : Position) (n : Nat) : Position := ⟨p.offset + n, p.line, p.column + n⟩

/-- Whether words can count `n` characters more on the line. -/
def HasRoom (p : Position) (n : Nat) : Prop := p.offset + n ≤ wordMax ∧ p.column + n ≤ wordMax

instance (p : Position) (n : Nat) : Decidable (p.HasRoom n) := inferInstanceAs (Decidable (_ ∧ _))

theorem along_along (p : Position) (m n : Nat) : (p.along m).along n = p.along (m + n) := by
  rw [along, along, along, Nat.add_assoc, Nat.add_assoc]

theorem hasRoom_along_iff : (p.along m).HasRoom n ↔ p.HasRoom (m + n) := by
  rw [HasRoom, HasRoom, ← Nat.add_assoc, ← Nat.add_assoc]
  rfl

theorem HasRoom.of_le (h : p.HasRoom n) (hmn : m ≤ n) : p.HasRoom m :=
  ⟨Nat.le_trans (Nat.add_le_add_left hmn _) h.1, Nat.le_trans (Nat.add_le_add_left hmn _) h.2⟩

theorem advance_of_hasRoom (h : p.HasRoom n) : p.advance n = .ok (p.along n) := by
  rw [advance, wordAdd_of_le h.1, wordAdd_of_le h.2]
  rfl

theorem advance_of_not_hasRoom (h : ¬ p.HasRoom n) : p.advance n = .error .add := by
  rw [advance]
  by_cases hoffset : p.offset + n ≤ wordMax
  · have hcolumn : wordAdd p.column n = .error .add := if_neg fun hcolumn => h ⟨hoffset, hcolumn⟩
    rw [wordAdd_of_le hoffset, hcolumn]
    rfl
  · have hfull : wordAdd p.offset n = .error .add := if_neg hoffset
    rw [hfull]
    rfl

theorem eq_along_of_advance {q : Position} (h : p.advance n = .ok q) : q = p.along n := by
  by_cases hroom : p.HasRoom n
  · rw [advance_of_hasRoom hroom] at h
    exact (Except.ok.inj h).symm
  · rw [advance_of_not_hasRoom hroom] at h
    exact nomatch h

/-- Without line breaks, reading on is going along the line. -/
theorem reached_append_of_notMem (as : List Char) {cs : List Char} (h : '\n' ∉ cs) :
    reached (as ++ cs) = (reached as).along cs.length := by
  have hline : cs.count '\n' = 0 := List.count_eq_zero.2 h
  ext
  · exact List.length_append
  · exact List.count_append.trans (congrArg _ hline)
  · rw [column_reached_append_of_notMem h, column_reached_of_notMem h]
    rfl

theorem hasRoom_reached {as : List Char} (h : as.length + n ≤ wordMax) :
    (reached as).HasRoom n :=
  ⟨h, Nat.le_trans (Nat.add_le_add_right (column_reached_le as) n) h⟩

/-! ## Checked steps through a text -/

/-- A text that a word cannot count is not walked through. -/
theorem walk_reached_of_lt {as cs : List Char} (has : as.length ≤ wordMax)
    (h : wordMax < as.length + cs.length) : (reached as).walk cs = .error .add := by
  induction cs generalizing as with
  | nil => exact absurd h (Nat.not_lt.2 has)
  | cons c cs ih =>
    rw [List.length_cons] at h
    rcases Nat.lt_or_eq_of_le has with hlt | heq
    · rw [walk, step_reached c hlt]
      refine ih ?_ ?_
      · rw [List.length_append, List.length_singleton]
        exact hlt
      · rw [List.length_append, List.length_singleton]
        omega
    · have hfull : wordAdd (reached as).offset 1 = .error .add := if_neg (by
        change ¬ as.length + 1 ≤ wordMax
        omega)
      rw [walk, step, hfull]
      rfl

end Position

/-- The span of `text` in a source where `before` stands in front of it. -/
def Span.over (before text : List Char) : Span := ⟨.reached before, .reached (before ++ text)⟩

end Mnemonic
