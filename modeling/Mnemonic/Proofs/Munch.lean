import Mnemonic.Proofs.Lexeme
import Mnemonic.Proofs.LongestMatch

/-!
# Proofs/Munch — a run is cut greedily, and its operators tile it

Cutting a run cannot fail, since no piece is empty, and what is left behind a piece is cut as it
would be by itself (`Catalog.pieces_text_right`).  So an operator depends on the characters from its
start on alone: it stands for the longest start of these that names something, or for the first of
them (`Catalog.munches_of_mem_row`).  Only counting can fail, and it does exactly where a word
cannot count the whole run (`decompose_tiles`).
-/

namespace Mnemonic

namespace Catalog

variable {C : Catalog} {run : List Char} {start : Position} {qs rs : List Piece} {t : Token}

/-- The pieces of a run cover it. -/
theorem text_pieces (C : Catalog) (run : List Char) : Piece.text (C.pieces run) = run :=
  C.flatten_pieces run

theorem decompose_of_hasRoom (h : start.HasRoom run.length) :
    C.decompose run start = .ok (Piece.row start (C.pieces run)) :=
  Piece.place_of_hasRoom (by rwa [text_pieces])

theorem decompose_of_not_hasRoom (hstart : start.HasRoom 0) (h : ¬ start.HasRoom run.length) :
    C.decompose run start = .error .add :=
  Piece.place_of_not_hasRoom hstart (by rwa [text_pieces])

theorem pieces_eq_nil_iff : C.pieces run = [] ↔ run = [] := by
  cases run with
  | nil => simp [pieces]
  | cons c cs => simp [pieces]

/-- **What is left of a run is cut as it would be by itself.** -/
theorem pieces_text_right (h : C.pieces run = qs ++ rs) : C.pieces (Piece.text rs) = rs := by
  induction qs generalizing run with
  | nil =>
    rw [List.nil_append] at h
    rw [← h, text_pieces]
  | cons q qs ih =>
    cases run with
    | nil =>
      rw [pieces] at h
      cases h
    | cons c cs =>
      rw [pieces, List.cons_append] at h
      exact ih (List.cons.inj h).2

/-- Whether greedy cutting turns the start of the text `left` into the operator `t`: into the glyph
of what the longest start names that names anything, or else into the first character. -/
inductive Munches (C : Catalog) (left : List Char) (t : Token) : Prop
  | named {w : List Char} {i : Instruction} (hne : w ≠ []) (hlead : w <+: left)
      (hnames : C.Names w i) (hlongest : ∀ v j, v <+: left → C.Names v j → v <+: w)
      (htext : t.text = i.glyph) (hstop : t.span.stop = t.span.start.along w.length)
  | raw {c : Char} {rest : List Char} (hleft : left = c :: rest)
      (hnone : ∀ v j, v <+: left → v ≠ [] → ¬ C.Names v j)
      (htext : t.text = .singleton c) (hstop : t.span.stop = t.span.start.along 1)

theorem munches_firstPiece (c : Char) (cs : List Char) (start : Position) :
    C.Munches (c :: cs) ((C.firstPiece c cs).token start) := by
  rcases ha : C.longestAbbreviation? (c :: cs) with _ | a
  · rw [firstPiece_of_none ha]
    exact .raw rfl (longestAbbreviation?_eq_none_iff.1 ha) rfl rfl
  · obtain ⟨hlead, hne, hi⟩ := longestAbbreviation?_spelling ha
    rw [firstPiece_of_some ha]
    exact .named hne hlead hi (fun v j hv hj => hj.prefix_spelling hv ha) rfl rfl

/-- **Every operator of a run is what greedy cutting makes of the run from there on.** -/
theorem munches_of_mem_row (h : t ∈ Piece.row start (C.pieces run)) :
    C.Munches (run.drop (t.span.start.offset - start.offset)) t := by
  obtain ⟨qs, p, rs, hpieces, rfl⟩ := Piece.mem_row_iff.1 h
  have hrun : run = Piece.text qs ++ Piece.text (p :: rs) := by
    rw [← Piece.text_append, ← hpieces, text_pieces]
  have hleft : run.drop ((start.along (Piece.text qs).length).offset - start.offset) =
      Piece.text (p :: rs) := by
    change run.drop (start.offset + (Piece.text qs).length - start.offset) = _
    rw [Nat.add_sub_cancel_left, hrun, List.drop_left]
  have hcut : C.pieces (Piece.text (p :: rs)) = p :: rs := pieces_text_right hpieces
  change C.Munches (run.drop ((start.along (Piece.text qs).length).offset - start.offset)) _
  rw [hleft]
  cases hp : Piece.text (p :: rs) with
  | nil =>
    rw [hp, pieces] at hcut
    cases hcut
  | cons c cs =>
    rw [hp, pieces] at hcut
    rw [← (List.cons.inj hcut).1]
    exact munches_firstPiece c cs _

/-- How the operators `ts` stand to the run that they are cut from, which begins at `start`. -/
structure Tiles (C : Catalog) (run : List Char) (start : Position) (ts : List Token) : Prop where
  operator : ∀ t ∈ ts, t.kind = .operator
  nonempty : ∀ t ∈ ts, t.span.start.offset < t.span.stop.offset
  line : ∀ t ∈ ts, t.span.start.line = start.line ∧ t.span.stop.line = start.line
  first : ∀ t ∈ ts.head?, t.span.start = start
  joined : ts.IsChain fun t u => t.span.stop = u.span.start
  last : ∀ t ∈ ts.getLast?, start.advance run.length = .ok t.span.stop
  eq_nil_iff : ts = [] ↔ run = []
  /-- Each operator is cut from what the operators before it leave of the run. -/
  munches : ∀ t ∈ ts, C.Munches (run.drop (t.span.start.offset - start.offset)) t

theorem tiles_row (h : start.HasRoom run.length) :
    C.Tiles run start (Piece.row start (C.pieces run)) where
  operator := by
    intro t ht
    obtain ⟨_, _, _, -, rfl⟩ := Piece.mem_row_iff.1 ht
    rfl
  nonempty := by
    intro t ht
    obtain ⟨qs, p, rs, hpieces, rfl⟩ := Piece.mem_row_iff.1 ht
    have hp : p ∈ C.pieces run := hpieces ▸ List.mem_append_right qs List.mem_cons_self
    exact Nat.lt_add_of_pos_right (List.length_pos_iff.2 (source_ne_nil_of_mem_pieces p hp))
  line := by
    intro t ht
    obtain ⟨_, _, _, -, rfl⟩ := Piece.mem_row_iff.1 ht
    exact ⟨rfl, rfl⟩
  first := fun _ => Piece.start_of_mem_head?_row
  joined := Piece.isChain_row _ _
  last := by
    intro t ht
    rw [Position.advance_of_hasRoom h, Piece.stop_of_mem_getLast?_row ht, text_pieces]
  eq_nil_iff := by
    rw [← pieces_eq_nil_iff (C := C)]
    exact Piece.row_eq_nil_iff
  munches := fun _ => munches_of_mem_row

end Catalog

/-- **A run is cut into operators that tile it, greedily from the left**, unless a count would
leave the words: then, and only then, a sum overflows.  What the operators show and how much they
cover is the same wherever the run begins.  The start itself is a place that words can count. -/
theorem decompose_tiles (C : Catalog) (run : List Char) (start : Position)
    (hstart : start.HasRoom 0) :
    (C.decompose run start = .error .add ↔
      wordMax < start.offset + run.length ∨ wordMax < start.column + run.length) ∧
    (start.offset + run.length ≤ wordMax → start.column + run.length ≤ wordMax →
      ∃ ts, C.decompose run start = .ok ts ∧ C.Tiles run start ts) ∧
    ∀ start' ts ts', C.decompose run start = .ok ts → C.decompose run start' = .ok ts' →
      ts'.map Token.shown = ts.map Token.shown ∧
        ts'.map (·.span.length) = ts.map (·.span.length) := by
  refine ⟨?_, fun hoffset hcolumn => ?_, fun start' ts ts' hts hts' => ?_⟩
  · by_cases hroom : start.HasRoom run.length
    · obtain ⟨hoffset, hcolumn⟩ := hroom
      rw [Catalog.decompose_of_hasRoom ⟨hoffset, hcolumn⟩]
      exact ⟨fun h => (nomatch h), fun h => by omega⟩
    · refine ⟨fun _ => ?_, fun _ => Catalog.decompose_of_not_hasRoom hstart hroom⟩
      rw [Position.HasRoom] at hroom
      omega
  · exact ⟨_, Catalog.decompose_of_hasRoom ⟨hoffset, hcolumn⟩,
      Catalog.tiles_row ⟨hoffset, hcolumn⟩⟩
  · rw [Piece.eq_row_of_place hts, Piece.eq_row_of_place hts']
    exact ⟨Piece.map_row_congr (fun _ _ _ => rfl) _ _ _, Piece.map_row_congr
      (fun p _ _ => (Piece.length_span_token _ p).trans (Piece.length_span_token _ p).symm) _ _ _⟩

/-- A table with an alias that begins another, an empty alias and a glyph of no characters. -/
def Catalog.nestedEmpty : Catalog := ⟨[⟨">=", ["gte", ""]⟩, ⟨"", ["gt", "x"]⟩]⟩

/-- A run with a delimiter and a line break in it, an alias that starts another, and a glyph of no
characters, on a line where words can just count it; and a run that they cannot. -/
theorem decompose_tiles_gte :
    (∃ ts ts',
      Catalog.nestedEmpty.decompose "gte)gx\n".toList ⟨7, 2, wordMax - 7⟩ = .ok ts ∧
      Catalog.nestedEmpty.Tiles "gte)gx\n".toList ⟨7, 2, wordMax - 7⟩ ts ∧
      Catalog.nestedEmpty.decompose "gte)gx\n".toList .origin = .ok ts' ∧
      ts'.map Token.shown = ts.map Token.shown ∧
        ts'.map (·.span.length) = ts.map (·.span.length)) ∧
    Catalog.nestedEmpty.decompose "gte)gx\n".toList ⟨7, 2, wordMax - 6⟩ = .error .add := by
  obtain ⟨-, htiles, hsame⟩ := decompose_tiles .nestedEmpty "gte)gx\n".toList
    ⟨7, 2, wordMax - 7⟩ (by decide +kernel)
  obtain ⟨hoverflow, -, -⟩ := decompose_tiles .nestedEmpty "gte)gx\n".toList
    ⟨7, 2, wordMax - 6⟩ (by decide +kernel)
  obtain ⟨ts, hts, htile⟩ := htiles (by decide +kernel) (by decide +kernel)
  have hts' := Catalog.decompose_of_hasRoom (C := .nestedEmpty)
    (show Position.origin.HasRoom "gte)gx\n".toList.length by decide +kernel)
  obtain ⟨hshown, hlength⟩ := hsame _ _ _ hts hts'
  exact ⟨⟨ts, _, hts, htile, hts', hshown, hlength⟩, hoverflow.2 (.inr (by decide +kernel))⟩

end Mnemonic
