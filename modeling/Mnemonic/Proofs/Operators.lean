import Mathlib.Data.List.Chain
import Mnemonic.Proofs.Place
import Mnemonic.Run

/-!
# Proofs/Operators — the operators of a row of pieces

Placing pieces can fail, but not halfway by chance: the checked steps along a line succeed exactly
when all pieces fit on it (`Piece.place_of_hasRoom`, `Piece.place_of_not_hasRoom`), and then they
give the operators that the pieces have without any checks (`Piece.row`).  So an operator is known
with the pieces before it (`Piece.mem_row_iff`).
-/

namespace Mnemonic

namespace Piece

variable {start : Position} {ps qs rs : List Piece} {t : Token}

/-- The characters that some pieces cover. -/
def text (ps : List Piece) : List Char := (ps.map source).flatten

theorem length_text_cons (p : Piece) (ps : List Piece) :
    (text (p :: ps)).length = p.source.length + (text ps).length := List.length_append

theorem text_append (qs rs : List Piece) : text (qs ++ rs) = text qs ++ text rs := by
  rw [text, List.map_append, List.flatten_append]
  rfl

/-- The operator of a piece that begins at `start`. -/
def token (start : Position) (p : Piece) : Token :=
  ⟨.operator, p.output, ⟨start, start.along p.source.length⟩⟩

/-- The operators of consecutive pieces, the first of which begins at `start`. -/
def row (start : Position) : List Piece → List Token
  | [] => []
  | p :: ps => p.token start :: row (start.along p.source.length) ps

theorem row_append (qs rs : List Piece) (start : Position) :
    row start (qs ++ rs) = row start qs ++ row (start.along (text qs).length) rs := by
  induction qs generalizing start with
  | nil => rfl
  | cons q qs ih =>
    rw [List.cons_append, row, ih, row, List.cons_append, Position.along_along, length_text_cons]

/-- **An operator is the one of a piece, behind the pieces before it.** -/
theorem mem_row_iff : t ∈ row start ps ↔
    ∃ qs p rs, ps = qs ++ p :: rs ∧ t = p.token (start.along (text qs).length) := by
  constructor
  · intro h
    induction ps generalizing start with
    | nil => exact absurd h List.not_mem_nil
    | cons p ps ih =>
      rcases List.mem_cons.1 h with rfl | h
      · exact ⟨[], p, ps, rfl, rfl⟩
      · obtain ⟨qs, q, rs, rfl, rfl⟩ := ih h
        exact ⟨p :: qs, q, rs, rfl, by rw [Position.along_along, length_text_cons]⟩
  · rintro ⟨qs, p, rs, rfl, rfl⟩
    rw [row_append]
    exact List.mem_append_right _ List.mem_cons_self

/-- Each operator begins where the one before it ends. -/
theorem isChain_row (ps : List Piece) (start : Position) :
    (row start ps).IsChain fun t u => t.span.stop = u.span.start := by
  induction ps generalizing start with
  | nil => exact .nil
  | cons p ps ih =>
    refine List.isChain_cons.2 ⟨fun u hu => ?_, ih _⟩
    match ps with
    | q :: ps =>
      obtain rfl := Option.some.inj hu
      rfl

theorem start_of_mem_head?_row (h : t ∈ (row start ps).head?) : t.span.start = start := by
  match ps with
  | p :: ps =>
    obtain rfl := Option.some.inj h
    rfl

/-- The last operator ends where the text of the pieces does. -/
theorem stop_of_mem_getLast?_row (h : t ∈ (row start ps).getLast?) :
    t.span.stop = start.along (text ps).length := by
  rcases List.eq_nil_or_concat ps with rfl | ⟨qs, p, rfl⟩
  · exact nomatch h
  · rw [List.concat_eq_append, row_append, row, row, List.getLast?_concat] at h
    obtain rfl := Option.some.inj h
    rw [List.concat_eq_append, text_append, List.length_append, length_text_cons,
      ← Position.along_along]
    rfl

theorem row_eq_nil_iff : row start ps = [] ↔ ps = [] := by
  match ps with
  | [] => exact ⟨fun _ => rfl, fun _ => rfl⟩
  | p :: ps => exact ⟨fun h => (nomatch h), fun h => (nomatch h)⟩

theorem length_span_token (start : Position) (p : Piece) :
    (p.token start).span.length = .ok p.source.length := wordSub_eq_ok_iff.2 rfl

/-- What does not depend on where a piece begins is the same for two rows of the pieces. -/
theorem map_row_congr {β : Type} {f : Token → β}
    (hf : ∀ p start start', f (token start' p) = f (token start p)) (ps : List Piece)
    (start start' : Position) : (row start' ps).map f = (row start ps).map f := by
  induction ps generalizing start start' with
  | nil => rfl
  | cons p ps ih => rw [row, row, List.map_cons, List.map_cons, hf p start start', ih]

/-! ## Checked rows -/

/-- Checks do not change where the operators stand. -/
theorem eq_row_of_place {ts : List Token} (h : place start ps = .ok ts) : ts = row start ps := by
  induction ps generalizing start ts with
  | nil => exact (Except.ok.inj h).symm
  | cons p ps ih =>
    obtain ⟨stop, hstop, h⟩ := bind_eq_ok_iff.1 h
    obtain ⟨us, hus, h⟩ := bind_eq_ok_iff.1 h
    obtain rfl := Position.eq_along_of_advance hstop
    rw [← Except.ok.inj h, ih hus]
    rfl

/-- **Where there is room for all pieces, they are placed.** -/
theorem place_of_hasRoom (h : start.HasRoom (text ps).length) :
    place start ps = .ok (row start ps) := by
  induction ps generalizing start with
  | nil => rfl
  | cons p ps ih =>
    rw [length_text_cons] at h
    have hstop : start.advance p.source.length = .ok (start.along p.source.length) :=
      Position.advance_of_hasRoom (h.of_le (Nat.le_add_right _ _))
    have hrest := ih (Position.hasRoom_along_iff.2 h)
    rw [place, hstop]
    change (do return _ :: (← place (start.along p.source.length) ps)) = _
    rw [hrest]
    rfl

/-- **Where there is not, a sum overflows.** -/
theorem place_of_not_hasRoom (hstart : start.HasRoom 0) (h : ¬ start.HasRoom (text ps).length) :
    place start ps = .error .add := by
  induction ps generalizing start with
  | nil => exact absurd hstart h
  | cons p ps ih =>
    rw [length_text_cons] at h
    rw [place]
    by_cases hp : start.HasRoom p.source.length
    · -- The first piece still fits, so the sum that overflows is one behind it.
      have hrest := ih (Position.hasRoom_along_iff.2 hp) (mt Position.hasRoom_along_iff.1 h)
      rw [Position.advance_of_hasRoom hp]
      change (do return _ :: (← place (start.along p.source.length) ps)) = _
      rw [hrest]
      rfl
    · rw [Position.advance_of_not_hasRoom hp]
      rfl

end Piece

end Mnemonic
