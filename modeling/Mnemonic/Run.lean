import Mnemonic.Catalog.Resolution
import Mnemonic.Token

/-!
# Run — a run of characters cut into operators

A run is cut from the left.  Each **piece** is the longest part that resolves and is printed as the
glyph of its instruction; where no part resolves, one character is passed through as it is.  The
cutting looks at characters alone (`pieces`), and `place` then gives the pieces their spans.

The pieces tile the run (`flatten_pieces`), and none is empty (`source_ne_nil_of_mem_pieces`).
-/

namespace Mnemonic

/-- A part of a run and what it is printed as. -/
structure Piece where
  /-- The characters it covers. -/
  source : List Char
  /-- The text it is printed as. -/
  output : String
  deriving DecidableEq, Repr

namespace Catalog

/-! ## Cutting -/

/-- The piece at the start of `c :: cs`. -/
def firstPiece (C : Catalog) (c : Char) (cs : List Char) : Piece :=
  match C.longestAbbreviation? (c :: cs) with
  | some a => ⟨a.spelling, a.instruction.glyph⟩
  | none => ⟨[c], String.singleton c⟩

theorem firstPiece_of_some {C : Catalog} {c : Char} {cs : List Char} {a : Abbreviation}
    (h : C.longestAbbreviation? (c :: cs) = some a) :
    C.firstPiece c cs = ⟨a.spelling, a.instruction.glyph⟩ := by
  rw [firstPiece, h]

theorem firstPiece_of_none {C : Catalog} {c : Char} {cs : List Char}
    (h : C.longestAbbreviation? (c :: cs) = none) : C.firstPiece c cs = ⟨[c], .singleton c⟩ := by
  rw [firstPiece, h]

theorem firstPiece_source_prefix (C : Catalog) (c : Char) (cs : List Char) :
    (C.firstPiece c cs).source <+: c :: cs := by
  unfold firstPiece
  split
  · rename_i a h
    exact (longestAbbreviation?_spelling h).1
  · exact ⟨cs, rfl⟩

theorem firstPiece_source_ne_nil (C : Catalog) (c : Char) (cs : List Char) :
    (C.firstPiece c cs).source ≠ [] := by
  unfold firstPiece
  split
  · rename_i a h
    exact (longestAbbreviation?_spelling h).2.1
  · simp

/-- The pieces of a run, from the left. -/
def pieces (C : Catalog) : List Char → List Piece
  | [] => []
  | c :: cs =>
    C.firstPiece c cs :: C.pieces ((c :: cs).drop (C.firstPiece c cs).source.length)
termination_by run => run.length
decreasing_by
  have := List.length_pos_iff.2 (C.firstPiece_source_ne_nil c cs)
  simp only [List.length_drop, List.length_cons]
  omega

/-- A part that resolves is cut off. -/
theorem pieces_of_some {C : Catalog} {w rest : List Char} {i : Instruction}
    (h : C.longestAbbreviation? (w ++ rest) = some ⟨w, i⟩) :
    C.pieces (w ++ rest) = ⟨w, i.glyph⟩ :: C.pieces rest := by
  have hne := (longestAbbreviation?_spelling h).2.1
  obtain ⟨c, cs, hcs⟩ := List.exists_cons_of_ne_nil (List.append_ne_nil_of_left_ne_nil hne rest)
  have hdrop : (c :: cs).drop w.length = rest := by rw [← hcs, List.drop_left]
  rw [hcs] at h ⊢
  rw [pieces, firstPiece_of_some h, hdrop]

/-- Where nothing resolves, one character is. -/
theorem pieces_of_none {C : Catalog} {c : Char} {cs : List Char}
    (h : C.longestAbbreviation? (c :: cs) = none) :
    C.pieces (c :: cs) = ⟨[c], .singleton c⟩ :: C.pieces cs := by
  rw [pieces, firstPiece_of_none h]
  rfl

/-- **The pieces tile the run.** -/
theorem flatten_pieces (C : Catalog) (run : List Char) :
    ((C.pieces run).map Piece.source).flatten = run := by
  fun_induction pieces C run with
  | case1 => rfl
  | case2 c cs ih =>
    rw [List.map_cons, List.flatten_cons, ih]
    exact List.prefix_iff_eq_append.1 (C.firstPiece_source_prefix c cs)

/-- No piece is empty. -/
theorem source_ne_nil_of_mem_pieces {C : Catalog} {run : List Char} :
    ∀ p ∈ C.pieces run, p.source ≠ [] := by
  fun_induction pieces C run with
  | case1 => simp
  | case2 c cs ih =>
    intro p hp
    rcases List.mem_cons.1 hp with rfl | hp
    · exact C.firstPiece_source_ne_nil c cs
    · exact ih p hp

theorem length_pieces_le (C : Catalog) (run : List Char) :
    (C.pieces run).length ≤ run.length := by
  fun_induction pieces C run with
  | case1 => simp
  | case2 c cs ih =>
    have := List.length_pos_iff.2 (C.firstPiece_source_ne_nil c cs)
    simp only [List.length_drop, List.length_cons] at ih ⊢
    omega

end Catalog

/-! ## Placing -/

/-- The operators of consecutive pieces, the first of which begins at `start`. -/
def Piece.place (start : Position) : List Piece → Except Overflow (List Token)
  | [] => .ok []
  | p :: ps => do
    let stop ← start.advance p.source.length
    return ⟨.operator, p.output, ⟨start, stop⟩⟩ :: (← Piece.place stop ps)

/-- Placing gives each piece one token. -/
theorem Piece.length_place {start : Position} {ps : List Piece} {ts : List Token}
    (h : Piece.place start ps = .ok ts) : ts.length = ps.length := by
  induction ps generalizing start ts with
  | nil => rw [← Except.ok.inj h]; rfl
  | cons p ps ih =>
    obtain ⟨stop, _, h⟩ := bind_eq_ok_iff.1 h
    obtain ⟨us, hus, h⟩ := bind_eq_ok_iff.1 h
    rw [← Except.ok.inj h, List.length_cons, ih hus, List.length_cons]

/-- The operators of a run that begins at `start`; the run is taken to stand on one line. -/
def Catalog.decompose (C : Catalog) (run : List Char) (start : Position) :
    Except Overflow (List Token) :=
  Piece.place start (C.pieces run)

theorem Catalog.length_decompose_le {C : Catalog} {run : List Char} {start : Position}
    {ts : List Token} (h : C.decompose run start = .ok ts) : ts.length ≤ run.length :=
  Piece.length_place h ▸ C.length_pieces_le run

end Mnemonic
