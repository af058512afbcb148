import Mathlib.Data.String.Basic
import Mnemonic.Catalog.Resolution

/-!
# Proofs/LongestMatch — the search finds the longest part that names an instruction

`C.Names w i` says that the characters `w` resolve to the row `i`.  A part that names something is
the start of an alias, so it is never beyond the bytes that the search tries, and the search answers
with the longest such part (`exists_longestAbbreviation?`).

The bytes of a text are counted as the library counts them (`byteLength_eq_utf8Len`).
-/

namespace Mnemonic

/-! ## Lengths in bytes -/

/-- Counting from the front gives the length that the library counts from the back. -/
theorem byteLength_eq_utf8Len (cs : List Char) : byteLength cs = String.utf8Len cs := by
  induction cs with
  | nil => rfl
  | cons c cs ih => rw [byteLength_cons, ih, String.utf8Len_cons, Nat.add_comm]

theorem byteLength_eq_utf8ByteSize (cs : List Char) :
    byteLength cs = (String.ofList cs).utf8ByteSize := by
  rw [byteLength_eq_utf8Len, String.utf8ByteSize_ofList]

theorem byteLength_toList (text : String) : byteLength text.toList = text.utf8ByteSize := by
  rw [byteLength_eq_utf8Len, String.utf8Len_toList]

theorem length_le_byteLength (cs : List Char) : cs.length ≤ byteLength cs := by
  induction cs with
  | nil => exact Nat.le_refl 0
  | cons c cs ih =>
    have hc := c.utf8Size_pos
    rw [List.length_cons, byteLength_cons]
    omega

theorem byteLength_le_of_prefix {as bs : List Char} (h : as <+: bs) :
    byteLength as ≤ byteLength bs := by
  simpa only [byteLength_eq_utf8Len] using String.utf8Len_le_of_prefix h

theorem byteLength_pos_iff {cs : List Char} : 0 < byteLength cs ↔ cs ≠ [] := by
  rw [byteLength_eq_utf8Len, Nat.pos_iff_ne_zero, Ne, String.utf8Len_eq_zero]

/-- Of two starts of a text the one with fewer bytes starts the other. -/
theorem prefix_of_byteLength_le {as bs cs : List Char} (ha : as <+: cs) (hb : bs <+: cs)
    (h : byteLength as ≤ byteLength bs) : as <+: bs := by
  rcases List.prefix_or_prefix_of_prefix ha hb with hab | ⟨ds, rfl⟩
  · exact hab
  · rw [byteLength_eq_utf8Len, byteLength_eq_utf8Len, String.utf8Len_append] at h
    have hds : ds = [] := String.utf8Len_eq_zero.1 (by omega)
    exact ⟨[], by rw [hds, List.append_nil, List.append_nil]⟩

namespace Catalog

/-! ## Naming -/

variable {C : Catalog} {w q text : List Char} {i : Instruction}

/-- Whether the characters `w` name the row `i`. -/
def Names (C : Catalog) (w : List Char) (i : Instruction) : Prop :=
  C.resolve (.ofList w) = .unique i

theorem Names.unique {j : Instruction} (h : C.Names w i) (h' : C.Names w j) : i = j :=
  Resolution.unique.inj (h.symm.trans h')

theorem Names.mem_matching (h : C.Names w i) : i ∈ C.matching (.ofList w) := by
  rw [resolve_eq_unique_iff.1 h]
  exact List.mem_singleton_self i

/-- What names a row starts one of its aliases. -/
theorem Names.exists_alias (h : C.Names w i) : i ∈ C.rows ∧ ∃ a ∈ i.aliases, w <+: a.toList := by
  obtain ⟨hrow, halias⟩ := List.mem_filter.1 h.mem_matching
  obtain ⟨a, ha, hlead⟩ := Instruction.hasAliasStartingWith_iff.1 halias
  rw [String.toList_ofList] at hlead
  exact ⟨hrow, a, ha, hlead⟩

/-- What names a row starts an alias of the catalog. -/
theorem Names.exists_mem_aliases (h : C.Names w i) : ∃ a ∈ C.aliases, w <+: a.toList := by
  obtain ⟨hrow, a, ha, hlead⟩ := h.exists_alias
  exact ⟨a, mem_aliases.2 ⟨i, hrow, ha⟩, hlead⟩

theorem Names.byteLength_le (h : C.Names w i) : byteLength w ≤ C.maxAliasLength := by
  obtain ⟨a, ha, hlead⟩ := h.exists_mem_aliases
  have hlen := byteLength_le_of_prefix hlead
  rw [byteLength_toList] at hlen
  exact Nat.le_trans hlen (utf8ByteSize_le_maxAliasLength ha)

theorem Names.length_le (h : C.Names w i) : w.length ≤ C.maxAliasLength :=
  Nat.le_trans (length_le_byteLength w) h.byteLength_le

theorem abbreviation?_of_names (h : C.Names w i) : C.abbreviation? w = some ⟨w, i⟩ :=
  abbreviation?_eq_some.2 ⟨rfl, h⟩

/-! ## The longest part -/

/-- Where a part of at most `n` bytes names something, the search finds one that is no shorter. -/
theorem exists_longestWithin? (hq : q <+: text) (hne : q ≠ []) (hi : C.Names q i) :
    ∀ {n : Nat}, byteLength q ≤ n →
      ∃ a, C.longestWithin? text n = some a ∧ byteLength q ≤ byteLength a.spelling
  | 0, hn => absurd (byteLength_pos_iff.2 hne) (by omega)
  | n + 1, hn => by
    unfold longestWithin?
    split
    · rename_i a ha
      obtain ⟨w, hw, ha⟩ := Option.bind_eq_some_iff.1 ha
      obtain ⟨-, hlen⟩ := leading?_eq_some_iff.1 hw
      obtain ⟨rfl, -⟩ := abbreviation?_eq_some.1 ha
      exact ⟨a, rfl, hlen ▸ hn⟩
    · rename_i hnone
      rcases Nat.lt_or_eq_of_le hn with hlt | heq
      · exact exists_longestWithin? hq hne hi (Nat.le_of_lt_succ hlt)
      · rw [leading?_eq_some_iff.2 ⟨hq, heq⟩, Option.bind_some, abbreviation?_of_names hi] at hnone
        exact nomatch hnone

/-- **Where a part of a text names something, the search finds one at least as long.** -/
theorem exists_longestAbbreviation? (hq : q <+: text) (hne : q ≠ []) (hi : C.Names q i) :
    ∃ a, C.longestAbbreviation? text = some a ∧ q <+: a.spelling := by
  obtain ⟨a, ha, hlen⟩ := exists_longestWithin? hq hne hi
    (Nat.le_min.2 ⟨hi.byteLength_le, byteLength_le_of_prefix hq⟩)
  exact ⟨a, ha, prefix_of_byteLength_le hq (longestAbbreviation?_spelling ha).1 hlen⟩

/-- The search fails exactly where no part of the text names anything. -/
theorem longestAbbreviation?_eq_none_iff :
    C.longestAbbreviation? text = none ↔
      ∀ q i, q <+: text → q ≠ [] → ¬ C.Names q i := by
  constructor
  · intro hnone q i hq hne hi
    obtain ⟨a, ha, -⟩ := exists_longestAbbreviation? hq hne hi
    exact nomatch hnone.symm.trans ha
  · intro h
    rcases ha : C.longestAbbreviation? text with _ | a
    · rfl
    · obtain ⟨hlead, hne, hi⟩ := longestAbbreviation?_spelling ha
      exact absurd hi (h _ _ hlead hne)

/-- **The search answers with a part that names something when no longer part does.** -/
theorem longestAbbreviation?_eq_some (hq : q <+: text) (hne : q ≠ []) (hi : C.Names q i)
    (hlongest : ∀ w j, q <+: w → w <+: text → C.Names w j → w = q) :
    C.longestAbbreviation? text = some ⟨q, i⟩ := by
  obtain ⟨a, ha, hle⟩ := exists_longestAbbreviation? hq hne hi
  obtain ⟨hlead, -, hj⟩ := longestAbbreviation?_spelling ha
  have hspelling : a.spelling = q := hlongest _ _ hle hlead hj
  have hinstruction : a.instruction = i := Names.unique (hspelling ▸ hj) hi
  rw [ha, ← hspelling, ← hinstruction]

/-- What names something starts the answer. -/
theorem Names.prefix_spelling {a : Abbreviation} (hi : C.Names q i) (hq : q <+: text)
    (ha : C.longestAbbreviation? text = some a) : q <+: a.spelling := by
  by_cases hne : q = []
  · rw [hne]
    exact List.nil_prefix
  · obtain ⟨b, hb, hlead⟩ := exists_longestAbbreviation? hq hne hi
    rwa [Option.some.inj (ha.symm.trans hb)]

/-- **The search sees nothing but the starts that name something**: tables and texts that share
these are searched alike. -/
theorem longestAbbreviation?_eq_of_names {D : Catalog} {text' : List Char}
    (h : ∀ w i, w ≠ [] → (w <+: text' ∧ D.Names w i ↔ w <+: text ∧ C.Names w i)) :
    D.longestAbbreviation? text' = C.longestAbbreviation? text := by
  rcases ha : C.longestAbbreviation? text with _ | a
  · have hnone := longestAbbreviation?_eq_none_iff.1 ha
    refine longestAbbreviation?_eq_none_iff.2 fun w i hw hne hi => ?_
    obtain ⟨hw, hi⟩ := (h w i hne).1 ⟨hw, hi⟩
    exact hnone w i hw hne hi
  · obtain ⟨hlead, hne, hi⟩ := longestAbbreviation?_spelling ha
    obtain ⟨hlead', hi'⟩ := (h _ _ hne).2 ⟨hlead, hi⟩
    refine longestAbbreviation?_eq_some hlead' hne hi' fun w j hle hw hj => ?_
    have hwne : w ≠ [] := fun hnil => hne (List.prefix_nil.1 (hnil ▸ hle))
    obtain ⟨hw, hj⟩ := (h w j hwne).1 ⟨hw, hj⟩
    exact (hj.prefix_spelling hw ha).eq_of_length_le hle.length_le

/-- Texts that share the starts that name something are searched alike. -/
theorem longestAbbreviation?_congr {text' : List Char}
    (h : ∀ w i, C.Names w i → (w <+: text' ↔ w <+: text)) :
    C.longestAbbreviation? text' = C.longestAbbreviation? text :=
  longestAbbreviation?_eq_of_names fun w i _ => and_congr_left (h w i)

/-- A table in which one alias begins another, so that the longer one has to be tried first, and a
third takes two bytes. -/
def nested : Catalog := ⟨[⟨">=", ["gte"]⟩, ⟨">", ["gt", "λ"]⟩]⟩

end Catalog

end Mnemonic
