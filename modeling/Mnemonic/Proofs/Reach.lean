import Mathlib.Data.List.Basic
import Mathlib.Data.Nat.Find
import Mnemonic.Proofs.LongestMatch

/-!
# Proofs/Reach — the longest start of a text that an alias shares decides alone

`C.reach text` counts the characters at the start of a text that some alias begins with as well, at
most.  The longer a query, the fewer rows it matches (`matching_sublist`), so the start of that
length decides: a longer one matches nothing, and if it matches several rows, then so does every
shorter one (`longestAbbreviation?_eq_of_reach`).
-/

namespace Mnemonic

namespace Catalog

variable {C : Catalog} {q w text : List Char} {i : Instruction}

/-! ## Rows along the starts of a text -/

/-- An alias that starts with a query starts with every part of it. -/
theorem hasAliasStartingWith_of_prefix (hqw : q <+: w)
    (h : i.hasAliasStartingWith (.ofList w) = true) :
    i.hasAliasStartingWith (.ofList q) = true := by
  rw [Instruction.hasAliasStartingWith_iff, String.toList_ofList] at h ⊢
  obtain ⟨a, ha, hwa⟩ := h
  exact ⟨a, ha, hqw.trans hwa⟩

/-- **A longer query matches fewer rows**, in the same order. -/
theorem matching_sublist (C : Catalog) (hqw : q <+: w) :
    (C.matching (.ofList w)).Sublist (C.matching (.ofList q)) :=
  List.monotone_filter_right C.rows fun _ h => hasAliasStartingWith_of_prefix hqw h

/-- A query matches a row when it starts an alias of the catalog. -/
theorem matching_ne_nil_iff : C.matching (.ofList w) ≠ [] ↔ ∃ a ∈ C.aliases, w <+: a.toList := by
  simp only [matching, ne_eq, List.filter_eq_nil_iff, Instruction.hasAliasStartingWith_iff,
    String.toList_ofList, mem_aliases]
  push Not
  constructor
  · rintro ⟨i, hi, a, ha, hwa⟩
    exact ⟨a, ⟨i, hi, ha⟩, hwa⟩
  · rintro ⟨a, ⟨i, hi, ha⟩, hwa⟩
    exact ⟨i, hi, a, ha, hwa⟩

/-- **Where a part of a query names a row, the query names it too, if it matches anything.** -/
theorem Names.of_prefix (hi : C.Names q i) (hqw : q <+: w) (hw : C.matching (.ofList w) ≠ []) :
    C.Names w i := by
  have hsub := C.matching_sublist hqw
  rw [resolve_eq_unique_iff.1 hi, List.sublist_singleton] at hsub
  exact resolve_eq_unique_iff.2 (hsub.resolve_left hw)

/-! ## The reach of a catalog -/

/-- The length of the longest start of a text that an alias begins with as well; `0` if there is
none. -/
def reach (C : Catalog) (text : List Char) : Nat :=
  Nat.findGreatest (fun n => ∃ a ∈ C.aliases, text.take n <+: a.toList) text.length

theorem length_le_reach (hw : w <+: text) (h : C.matching (.ofList w) ≠ []) :
    w.length ≤ C.reach text := by
  obtain ⟨a, ha, hwa⟩ := matching_ne_nil_iff.1 h
  refine Nat.le_findGreatest hw.length_le ⟨a, ha, ?_⟩
  rwa [← List.prefix_iff_eq_take.1 hw]

theorem matching_take_reach_ne_nil (h : 0 < C.reach text) :
    C.matching (.ofList (text.take (C.reach text))) ≠ [] :=
  matching_ne_nil_iff.2 (Nat.findGreatest_of_ne_zero rfl (Nat.ne_of_gt h))

/-- What names something starts the longest start that an alias begins with. -/
theorem Names.prefix_take_reach (hi : C.Names w i) (hw : w <+: text) :
    w <+: text.take (C.reach text) := by
  have hmatching : C.matching (.ofList w) ≠ [] := List.ne_nil_of_mem hi.mem_matching
  rw [List.prefix_iff_eq_take.1 hw]
  exact List.take_prefix_take_left (length_le_reach hw hmatching)

/-- **The search looks at one start**, if any: the longest that an alias begins with. -/
theorem longestAbbreviation?_eq_abbreviation? (h : 0 < C.reach text) :
    C.longestAbbreviation? text = C.abbreviation? (text.take (C.reach text)) := by
  have hlead := List.take_prefix (C.reach text) text
  have hmatching := matching_take_reach_ne_nil h
  rcases ha : C.abbreviation? (text.take (C.reach text)) with _ | a
  · refine longestAbbreviation?_eq_none_iff.2 fun w i hw _ hi => ?_
    have htake := hi.of_prefix (hi.prefix_take_reach hw) hmatching
    exact nomatch ha.symm.trans (abbreviation?_of_names htake)
  · obtain ⟨hspelling, hi⟩ := abbreviation?_eq_some.1 ha
    have hne : text.take (C.reach text) ≠ [] := by
      intro hnil
      have hlen := congrArg List.length hnil
      have hle : C.reach text ≤ text.length := Nat.findGreatest_le _
      simp only [List.length_take, List.length_nil] at hlen
      omega
    rw [longestAbbreviation?_eq_some hlead hne hi fun w j hle hw hj =>
      (hj.prefix_take_reach hw).eq_of_length_le hle.length_le, ← hspelling]

/-- Without such a start nothing names anything. -/
theorem longestAbbreviation?_of_reach_eq_zero (h : C.reach text = 0) :
    C.longestAbbreviation? text = none := by
  refine longestAbbreviation?_eq_none_iff.2 fun w i hw hne hi => ?_
  have hlead := hi.prefix_take_reach hw
  rw [h, List.take_zero] at hlead
  exact hne (List.prefix_nil.1 hlead)

end Catalog

/-- **The longest start of a text that an alias begins with decides alone.**  Without one the search
finds nothing.  If one row has an alias that begins with it, the search answers with this start and
this row; if several rows do, it finds nothing, since no start of the text names anything. -/
theorem longestAbbreviation?_eq_of_reach (C : Catalog) (text : List Char) :
    (C.reach text = 0 → C.longestAbbreviation? text = none) ∧
    (0 < C.reach text →
      (∀ i, C.matching (.ofList (text.take (C.reach text))) = [i] →
        ∃ a, C.longestAbbreviation? text = some a ∧ a.instruction = i ∧
          a.spelling = text.take (C.reach text) ∧
          a.byteLength = (String.ofList (text.take (C.reach text))).utf8ByteSize) ∧
      (2 ≤ (C.matching (.ofList (text.take (C.reach text)))).length →
        C.longestAbbreviation? text = none ∧
          ∀ w i, w <+: text → w ≠ [] → ¬ C.Names w i)) := by
  refine ⟨Catalog.longestAbbreviation?_of_reach_eq_zero, fun hpos =>
    ⟨fun i hi => ?_, fun htwo => ?_⟩⟩
  · have hnames : C.Names (text.take (C.reach text)) i := Catalog.resolve_eq_unique_iff.2 hi
    refine ⟨⟨text.take (C.reach text), i⟩, ?_, rfl, rfl, byteLength_eq_utf8ByteSize _⟩
    rw [Catalog.longestAbbreviation?_eq_abbreviation? hpos, Catalog.abbreviation?_of_names hnames]
  · have hnone : C.longestAbbreviation? text = none := by
      rw [Catalog.longestAbbreviation?_eq_abbreviation? hpos, Catalog.abbreviation?,
        Catalog.resolve_eq_ambiguous_iff.2 ⟨rfl, htwo⟩]
      rfl
    exact ⟨hnone, Catalog.longestAbbreviation?_eq_none_iff.1 hnone⟩

/-- One row begins with three characters of the text, both with two, and none with a digit. -/
theorem longestAbbreviation?_eq_of_reach_gte :
    (∃ a, Catalog.nested.longestAbbreviation? "gtex".toList = some a ∧
        a.instruction = ⟨">=", ["gte"]⟩ ∧ a.spelling = "gte".toList) ∧
      Catalog.nested.longestAbbreviation? "gtx".toList = none ∧
      Catalog.nested.longestAbbreviation? "2".toList = none := by
  obtain ⟨-, hthree⟩ := longestAbbreviation?_eq_of_reach .nested "gtex".toList
  obtain ⟨-, htwo⟩ := longestAbbreviation?_eq_of_reach .nested "gtx".toList
  obtain ⟨hzero, -⟩ := longestAbbreviation?_eq_of_reach .nested "2".toList
  obtain ⟨a, ha, hi, hspelling, -⟩ :=
    (hthree (by decide +kernel)).1 ⟨">=", ["gte"]⟩ (by decide +kernel)
  exact ⟨⟨a, ha, hi, hspelling.trans (by decide +kernel)⟩,
    ((htwo (by decide +kernel)).2 (by decide +kernel)).1, hzero (by decide +kernel)⟩

end Mnemonic
