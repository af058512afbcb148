import Mnemonic.Instruction

/-!
# Catalog/Basic — an ordered table of instructions

A **catalog** is a list of rows.  Rows may share a glyph, repeat an alias or have none; the look-ups
below return the first row that fits.
-/

namespace Mnemonic

/-- A table of instructions, in the order in which it is listed. -/
structure Catalog where
  /-- The instructions, first row first. -/
  rows : List Instruction
  deriving DecidableEq, Repr, Inhabited

namespace Catalog

/-- The number of rows. -/
def size (C : Catalog) : Nat := C.rows.length

/-- Whether there is no row. -/
def isEmpty (C : Catalog) : Bool := C.rows.isEmpty

/-- Every alias of every row. -/
def aliases (C : Catalog) : List String := C.rows.flatMap Instruction.aliases

/-- The length in bytes of the longest alias, `0` without aliases. -/
def maxAliasLength (C : Catalog) : Nat := (C.aliases.map String.utf8ByteSize).foldr max 0

/-- The first row with the given glyph. -/
def findByGlyph? (C : Catalog) (glyph : String) : Option Instruction :=
  C.rows.find? (·.glyph == glyph)

/-- The first row that owns exactly this alias. -/
def findByAlias? (C : Catalog) (name : String) : Option Instruction :=
  C.rows.find? (·.aliases.contains name)

theorem mem_aliases {C : Catalog} {a : String} :
    a ∈ C.aliases ↔ ∃ i ∈ C.rows, a ∈ i.aliases := by
  simp [aliases]

theorem maxAliasLength_le_iff {C : Catalog} {n : Nat} :
    C.maxAliasLength ≤ n ↔ ∀ a ∈ C.aliases, a.utf8ByteSize ≤ n := by
  unfold maxAliasLength
  induction C.aliases with
  | nil => simp
  | cons a as ih => rw [List.map_cons, List.foldr_cons, Nat.max_le, ih, List.forall_mem_cons]

/-- **No alias is longer than `maxAliasLength`.** -/
theorem utf8ByteSize_le_maxAliasLength {C : Catalog} {a : String} (h : a ∈ C.aliases) :
    a.utf8ByteSize ≤ C.maxAliasLength :=
  maxAliasLength_le_iff.1 (Nat.le_refl _) a h

end Catalog

end Mnemonic
