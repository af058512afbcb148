import Mathlib.Data.List.FinRange
import Mathlib.Logic.Equiv.Defs
import Mnemonic.Proofs.Agreement

/-!
# Proofs/TableOrder — the order of a table carries no meaning

A **reordering** matches the rows of two tables so that matched rows have the same glyph and the
same aliases, in whatever order and however often each is written.  Reordered tables give a query
the same verdict, cut a text at the same place, and so read every source alike
(`tokenize_reordered`).

The search looks at rows in their order and the verdict at a row and how many follow it.  What
carries the proof is that both depend on the places of the matching rows alone (`placesOf`), and
that these correspond (`Reordering.placesOf_perm`).
-/

namespace Mnemonic

namespace Catalog

variable {C D : Catalog}

/-! ## Where the matching rows stand -/

/-- The row at a place of the table. -/
def row (C : Catalog) (k : Fin C.rows.length) : Instruction := C.rows.get k

/-- The places of the rows with an alias that starts with `query`. -/
def placesOf (C : Catalog) (query : String) : List (Fin C.rows.length) :=
  (List.finRange C.rows.length).filter fun k => (C.row k).hasAliasStartingWith query

theorem mem_placesOf_iff {query : String} {k : Fin C.rows.length} :
    k ∈ C.placesOf query ↔ (C.row k).hasAliasStartingWith query = true :=
  List.mem_filter.trans (and_iff_right (List.mem_finRange k))

theorem nodup_placesOf (C : Catalog) (query : String) : (C.placesOf query).Nodup :=
  (List.nodup_finRange _).filter _

/-- The matching rows are those at the places of a query. -/
theorem map_row_placesOf (C : Catalog) (query : String) :
    (C.placesOf query).map C.row = C.matching query := by
  have hrows : (List.finRange C.rows.length).map C.row = C.rows := List.map_get_finRange C.rows
  calc (C.placesOf query).map C.row
      = ((List.finRange C.rows.length).map C.row).filter (·.hasAliasStartingWith query) := by
        rw [List.filter_map]
        rfl
    _ = C.matching query := congrArg (List.filter _) hrows

/-! ## Reorderings -/

/-- A way of matching the rows of two tables, place by place, so that matched rows have the same
glyph and the same set of aliases. -/
structure Reordering (C D : Catalog) where
  place : Fin C.rows.length ≃ Fin D.rows.length
  glyph_eq : ∀ k, (D.row (place k)).glyph = (C.row k).glyph
  mem_aliases_iff : ∀ k a, a ∈ (D.row (place k)).aliases ↔ a ∈ (C.row k).aliases

namespace Reordering

/-- Whether two verdicts say the same: both find nothing, or matched rows, or as many. -/
inductive SameVerdict (m : C.Reordering D) : Resolution → Resolution → Prop
  | notFound : SameVerdict m .notFound .notFound
  | unique (k : Fin C.rows.length) : SameVerdict m (.unique (C.row k)) (.unique (D.row (m.place k)))
  | ambiguous (n : Nat) : SameVerdict m (.ambiguous n) (.ambiguous n)

/-- Whether two searches end alike: both find nothing, or the same characters and matched rows. -/
inductive SameMatch (m : C.Reordering D) : Option Abbreviation → Option Abbreviation → Prop
  | none : SameMatch m none none
  | some (w : List Char) (k : Fin C.rows.length) :
      SameMatch m (some ⟨w, C.row k⟩) (some ⟨w, D.row (m.place k)⟩)

/-! ### Queries -/

/-- Matched rows are matched by the same queries. -/
theorem hasAliasStartingWith_eq (m : C.Reordering D) (query : String) (k : Fin C.rows.length) :
    (D.row (m.place k)).hasAliasStartingWith query = (C.row k).hasAliasStartingWith query := by
  rw [Bool.eq_iff_iff, Instruction.hasAliasStartingWith_iff, Instruction.hasAliasStartingWith_iff]
  exact exists_congr fun a => and_congr_left fun _ => m.mem_aliases_iff k a

/-- **The places of a query correspond**, though they come in another order. -/
theorem placesOf_perm (m : C.Reordering D) (query : String) :
    (D.placesOf query).Perm ((C.placesOf query).map m.place) := by
  have hnodup : ((C.placesOf query).map m.place).Nodup :=
    (C.nodup_placesOf query).map m.place.injective
  refine (List.perm_ext_iff_of_nodup (D.nodup_placesOf query) hnodup).2 fun k => ?_
  obtain ⟨j, rfl⟩ := m.place.surjective k
  rw [mem_placesOf_iff, m.hasAliasStartingWith_eq, List.mem_map_of_injective m.place.injective,
    mem_placesOf_iff]

/-- **A query gets the same verdict.** -/
theorem sameVerdict_resolve (m : C.Reordering D) (query : String) :
    m.SameVerdict (C.resolve query) (D.resolve query) := by
  have hperm := m.placesOf_perm query
  have hC := C.map_row_placesOf query
  have hD := D.map_row_placesOf query
  match hplaces : C.placesOf query with
  | [] =>
    rw [hplaces] at hperm hC
    rw [hperm.eq_nil] at hD
    rw [resolve_eq_notFound_iff.2 hC.symm, resolve_eq_notFound_iff.2 hD.symm]
    exact .notFound
  | [k] =>
    rw [hplaces] at hperm hC
    rw [List.perm_singleton.1 hperm] at hD
    rw [resolve_eq_unique_iff.2 hC.symm, resolve_eq_unique_iff.2 hD.symm]
    exact .unique k
  | j :: k :: ks =>
    have hcount : (D.matching query).length = (C.matching query).length := by
      rw [← hC, ← hD, List.length_map, List.length_map, hperm.length_eq, List.length_map]
    have htwo : 2 ≤ (C.matching query).length := by
      rw [← hC, hplaces, List.length_map]
      exact Nat.le_add_left 2 ks.length
    rw [resolve_eq_ambiguous_iff.2 ⟨rfl, htwo⟩, resolve_eq_ambiguous_iff.2 ⟨hcount, htwo⟩]
    exact .ambiguous _

/-! ### Texts -/

/-- The aliases of the two tables are the same. -/
theorem mem_aliases_catalog_iff (m : C.Reordering D) (a : String) :
    a ∈ D.aliases ↔ a ∈ C.aliases := by
  have hrows : ∀ E : Catalog, a ∈ E.aliases ↔ ∃ k, a ∈ (E.row k).aliases := fun E =>
    mem_aliases.trans List.exists_mem_iff_get
  rw [hrows, hrows, m.place.surjective.exists]
  exact exists_congr fun k => m.mem_aliases_iff k a

theorem maxAliasLength_eq (m : C.Reordering D) : D.maxAliasLength = C.maxAliasLength := by
  refine Nat.le_antisymm (maxAliasLength_le_iff.2 fun a ha => ?_)
    (maxAliasLength_le_iff.2 fun a ha => ?_)
  · exact utf8ByteSize_le_maxAliasLength ((m.mem_aliases_catalog_iff a).1 ha)
  · exact utf8ByteSize_le_maxAliasLength ((m.mem_aliases_catalog_iff a).2 ha)

/-- The same characters are abbreviations of matched rows. -/
theorem sameMatch_abbreviation? (m : C.Reordering D) (w : List Char) :
    m.SameMatch (C.abbreviation? w) (D.abbreviation? w) := by
  have hverdict := m.sameVerdict_resolve (.ofList w)
  rw [abbreviation?, abbreviation?]
  generalize C.resolve (.ofList w) = r at hverdict
  generalize D.resolve (.ofList w) = r' at hverdict
  cases hverdict with
  | notFound | ambiguous _ => exact .none
  | unique k => exact .some w k

/-- Searches among parts of the same size end alike. -/
theorem sameMatch_longestWithin? (m : C.Reordering D) (text : List Char) (n : Nat) :
    m.SameMatch (C.longestWithin? text n) (D.longestWithin? text n) := by
  induction n with
  | zero => exact .none
  | succ n ih =>
    rw [longestWithin?, longestWithin?]
    rcases leading? (n + 1) text with _ | w
    · exact ih
    · rw [Option.bind_some, Option.bind_some]
      have hmatch := m.sameMatch_abbreviation? w
      generalize C.abbreviation? w = x at hmatch
      generalize D.abbreviation? w = y at hmatch
      cases hmatch with
      | none => exact ih
      | some w k => exact .some w k

/-- **The longest part of a text that resolves is the same, and names matched rows.** -/
theorem sameMatch_longestAbbreviation? (m : C.Reordering D) (text : List Char) :
    m.SameMatch (C.longestAbbreviation? text) (D.longestAbbreviation? text) := by
  rw [longestAbbreviation?, longestAbbreviation?, m.maxAliasLength_eq]
  exact m.sameMatch_longestWithin? text _

/-! ### Words -/

theorem firstPiece_eq (m : C.Reordering D) (c : Char) (cs : List Char) :
    D.firstPiece c cs = C.firstPiece c cs := by
  have hmatch := m.sameMatch_longestAbbreviation? (c :: cs)
  rw [firstPiece, firstPiece]
  generalize C.longestAbbreviation? (c :: cs) = x at hmatch
  generalize D.longestAbbreviation? (c :: cs) = y at hmatch
  cases hmatch with
  | none => rfl
  | some w k => exact congrArg (Piece.mk w) (m.glyph_eq k)

/-- **A word is cut into the same pieces.** -/
theorem pieces_eq (m : C.Reordering D) (run : List Char) : D.pieces run = C.pieces run :=
  pieces_congr fun c cs _ => m.firstPiece_eq c cs

end Reordering

end Catalog

open Catalog (Reordering)

/-- **The order of rows, and of aliases in a row, carries no meaning**: reordered tables give every
query the same verdict, find the same longest part of every text, and read every source as the same
tokens or fail with the same error. -/
theorem tokenize_reordered {C D : Catalog} (m : C.Reordering D) :
    (∀ query, m.SameVerdict (C.resolve query) (D.resolve query)) ∧
    (∀ text, m.SameMatch (C.longestAbbreviation? text) (D.longestAbbreviation? text)) ∧
    ∀ policy source, tokenize D policy source = tokenize C policy source :=
  ⟨m.sameVerdict_resolve, m.sameMatch_longestAbbreviation?, fun _ _ =>
    tokenize_congr fun _ _ run _ _ => m.pieces_eq run⟩

/-- Rows change places, an alias is repeated, and the two rows of one glyph stay apart. -/
theorem tokenize_reordered_repeated :
    tokenize ⟨[⟨"∃", ["all", "any", "all"]⟩, ⟨"∧", ["and"]⟩, ⟨"∃", ["any", "all"]⟩]⟩ .reject
        "an al and" =
      tokenize ⟨[⟨"∧", ["and"]⟩, ⟨"∃", ["any", "all"]⟩, ⟨"∃", ["all", "any"]⟩]⟩ .reject
        "an al and" := by
  have hm : Nonempty (Reordering
      ⟨[⟨"∧", ["and"]⟩, ⟨"∃", ["any", "all"]⟩, ⟨"∃", ["all", "any"]⟩]⟩
      ⟨[⟨"∃", ["all", "any", "all"]⟩, ⟨"∧", ["and"]⟩, ⟨"∃", ["any", "all"]⟩]⟩) := by
    refine ⟨(Equiv.swap 0 1 : Equiv.Perm (Fin 3)), by decide, fun k a => ?_⟩
    match k with
    | 0 => exact Iff.rfl
    | 1 =>
      change a ∈ ["all", "any", "all"] ↔ a ∈ ["any", "all"]
      simp [or_comm]
    | 2 =>
      change a ∈ ["any", "all"] ↔ a ∈ ["all", "any"]
      simp [or_comm]
  obtain ⟨m⟩ := hm
  exact (tokenize_reordered m).2.2 .reject "an al and"

end Mnemonic
