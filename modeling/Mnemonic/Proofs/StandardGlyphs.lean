import Mathlib.Data.List.Infix
import Mnemonic.Catalog.Standard
import Mnemonic.Proofs.Printing

/-!
# Proofs/StandardGlyphs — the built-in catalog is settled

Aliases are written in small letters and the digit `2`, and no glyph is, with one exception: `fold`
is the glyph and the one alias of its instruction.
-/

namespace Mnemonic.Catalog

/-- A character that aliases are written in. -/
def isNameChar (c : Char) : Bool := c.isLower || c == '2'

/-- The instruction whose glyph is its name. -/
def fold : Instruction := ⟨"fold", ["fold"]⟩

theorem isNameChar_of_mem_alias {a : String} {c : Char} (ha : a ∈ standard.aliases)
    (hc : c ∈ a.toList) : isNameChar c = true := by
  have hall : (standard.aliases.all fun a => a.toList.all isNameChar) = true := by decide +kernel
  exact List.all_eq_true.1 (List.all_eq_true.1 hall a ha) c hc

/-- What every glyph but that of `fold` consists of. -/
theorem eq_fold_or_glyph_chars {i : Instruction} (hi : i ∈ standard.rows) :
    i = fold ∨ ∀ c ∈ i.glyph.toList, isNameChar c = false := by
  have hall : (standard.rows.all fun i =>
      i == fold || i.glyph.toList.all (!isNameChar ·)) = true := by decide +kernel
  rcases Bool.or_eq_true_iff.1 (List.all_eq_true.1 hall i hi) with hfold | hchars
  · exact .inl (eq_of_beq hfold)
  · exact .inr fun c hc => Bool.not_eq_true' _ ▸ List.all_eq_true.1 hchars c hc

theorem glyph_standard {i : Instruction} (hi : i ∈ standard.rows) :
    i.glyph.toList ≠ [] ∧ ∀ c ∈ i.glyph.toList, isDelimiter c = false ∧ c.isDigit = false := by
  have hall : (standard.rows.all fun i => !i.glyph.toList.isEmpty &&
      i.glyph.toList.all fun c => !isDelimiter c && !c.isDigit) = true := by decide +kernel
  obtain ⟨hne, hchars⟩ := Bool.and_eq_true_iff.1 (List.all_eq_true.1 hall i hi)
  refine ⟨fun hnil => ?_, fun c hc => ?_⟩
  · rw [hnil] at hne
    exact nomatch hne
  · simpa using List.all_eq_true.1 hchars c hc

/-- **`fold` is named from `fol` on, and is no part of another alias.** -/
theorem selfNamed_fold : standard.SelfNamed fold where
  names := by
    unfold Names
    decide +kernel
  whole a ha hwithin := by
    have hall : (standard.aliases.all fun a =>
        !decide ("fold".toList <:+: a.toList) || a == "fold") = true := by decide +kernel
    rcases Bool.or_eq_true_iff.1 (List.all_eq_true.1 hall a ha) with hnot | heq
    · have hnotwithin : ¬ "fold".toList <:+: a.toList := by simpa using hnot
      exact absurd hwithin hnotwithin
    · exact eq_of_beq heq
  late w hw := by
    obtain ⟨-, a, ha, hlead⟩ := hw.exists_alias
    obtain rfl := List.mem_singleton.1 ha
    refine ⟨hlead, ?_⟩
    have hshort : ∀ n < 3, ¬ standard.Names ("fold".toList.take n) fold := by
      unfold Names
      decide +kernel
    rcases Nat.lt_or_ge w.length 3 with hlt | hge
    · rw [List.prefix_iff_eq_take.1 hlead] at hw
      exact absurd hw (hshort _ hlt)
    · change 4 ≤ w.length + 1
      omega

/-- **The glyphs of the built-in catalog can be read back.** -/
theorem settled_standard : standard.Settled where
  glyph_ne_nil i hi := (glyph_standard hi).1
  glyph_plain i hi := (glyph_standard hi).2
  glyph_settles i hi := by
    rcases eq_fold_or_glyph_chars hi with rfl | hchars
    · exact .inr selfNamed_fold
    · refine .inl fun c hc a ha hmem => ?_
      exact Bool.noConfusion ((hchars c hc).symm.trans (isNameChar_of_mem_alias ha hmem))
  lambda_notMem a ha hmem := by
    have hname := isNameChar_of_mem_alias ha hmem
    exact absurd hname (by decide)

end Mnemonic.Catalog
