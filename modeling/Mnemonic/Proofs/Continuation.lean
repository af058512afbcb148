import Mathlib.Data.List.Perm.Subperm
import Mnemonic.Proofs.Reach
import Mnemonic.Proofs.TableOrder

/-!
# Proofs/Continuation — what a query stands for settles what a longer text can find

A text is searched from its end, so the search sees what follows a query before the query itself.
Still the query decides.  If it names a row, every text that begins with it is a match of this row.
If it matches several rows, nothing as short as the query is ever found.  If it matches none, what
follows it does not matter (`longestAbbreviation?_append`).

All three rest on one fact: behind a query the matching rows only become fewer
(`matching_sublist`).
-/

namespace Mnemonic

namespace Catalog

variable {C : Catalog} {q t w : List Char} {i : Instruction} {a : Abbreviation}

/-! ## Queries that name a row -/

/-- A row that is named stands in the table once. -/
theorem Names.count_rows (hi : C.Names q i) : C.rows.count i = 1 := by
  have hrow : i.hasAliasStartingWith (.ofList q) = true := (List.mem_filter.1 hi.mem_matching).2
  have hcount : (C.matching (.ofList q)).count i = C.rows.count i := List.count_filter hrow
  rw [← hcount, resolve_eq_unique_iff.1 hi, List.count_singleton_self]

/-- **Where a query names a row, a text that begins with it is a match of this row.** -/
theorem Names.exists_longestAbbreviation?_append (hi : C.Names q i) (hne : q ≠ [])
    (t : List Char) :
    ∃ a, C.longestAbbreviation? (q ++ t) = some a ∧ a.instruction = i ∧ q <+: a.spelling := by
  obtain ⟨a, ha, hlead⟩ := exists_longestAbbreviation? (List.prefix_append q t) hne hi
  obtain ⟨-, -, hj⟩ := longestAbbreviation?_spelling ha
  have hmatching : C.matching (.ofList a.spelling) ≠ [] :=
    List.ne_nil_of_mem (Names.mem_matching hj)
  exact ⟨a, ha, Names.unique hj (hi.of_prefix hlead hmatching), hlead⟩

/-! ## Queries that match several rows -/

/-- Two places of the table that match a query make two matching rows, even if they hold the same
row. -/
theorem two_le_length_matching {query : String} {k l : Fin C.rows.length} (hkl : k ≠ l)
    (hk : (C.row k).hasAliasStartingWith query = true)
    (hl : (C.row l).hasAliasStartingWith query = true) : 2 ≤ (C.matching query).length := by
  have hnodup : [k, l].Nodup := List.nodup_cons.2
    ⟨fun h => hkl (List.mem_singleton.1 h), List.nodup_singleton l⟩
  have hsub : [k, l] ⊆ C.placesOf query := by
    intro m hm
    rcases List.mem_pair.1 hm with rfl | rfl
    · exact mem_placesOf_iff.2 hk
    · exact mem_placesOf_iff.2 hl
  rw [← map_row_placesOf, List.length_map]
  exact (hnodup.subperm hsub).length_le

/-- What starts something that is named is no start of a query that matches several rows. -/
theorem Names.not_prefix (hi : C.Names w i) (htwo : 2 ≤ (C.matching (.ofList q)).length) :
    ¬ w <+: q := by
  intro hwq
  have hle := (C.matching_sublist hwq).length_le
  rw [resolve_eq_unique_iff.1 hi, List.length_singleton] at hle
  omega

/-- **Behind a query that matches several rows, what is found is longer than the query.** -/
theorem byteLength_lt_of_two_le (htwo : 2 ≤ (C.matching (.ofList q)).length)
    (ha : C.longestAbbreviation? (q ++ t) = some a) : byteLength q < a.byteLength := by
  obtain ⟨hlead, -, hi⟩ := longestAbbreviation?_spelling ha
  by_contra hle
  exact Names.not_prefix hi htwo
    (prefix_of_byteLength_le hlead (List.prefix_append q t) (Nat.le_of_not_lt hle))

/-! ## Queries that match no row -/

/-- Behind a query that matches no row nothing is named. -/
theorem not_names_of_matching_eq_nil (h : C.matching (.ofList q) = []) (hqw : q <+: w) :
    ¬ C.Names w i := by
  intro hi
  have hsub := C.matching_sublist hqw
  rw [h, resolve_eq_unique_iff.1 hi] at hsub
  exact List.cons_ne_nil i [] (List.sublist_nil.1 hsub)

/-- **Behind a query that matches no row, what follows does not matter.** -/
theorem longestAbbreviation?_append_of_matching_eq_nil (h : C.matching (.ofList q) = []) :
    C.longestAbbreviation? (q ++ t) = C.longestAbbreviation? q := by
  refine longestAbbreviation?_congr fun w i hi => ?_
  constructor
  · intro hw
    exact (List.prefix_or_prefix_of_prefix hw (List.prefix_append q t)).resolve_right
      fun hqw => not_names_of_matching_eq_nil h hqw hi
  · exact fun hw => hw.trans (List.prefix_append q t)

theorem byteLength_lt_of_matching_eq_nil (h : C.matching (.ofList q) = [])
    (ha : C.longestAbbreviation? q = some a) : a.byteLength < byteLength q := by
  obtain ⟨hlead, -, hi⟩ := longestAbbreviation?_spelling ha
  by_contra hle
  exact not_names_of_matching_eq_nil h
    (prefix_of_byteLength_le (List.prefix_refl q) hlead (Nat.le_of_not_lt hle)) hi

end Catalog

/-- **What a query stands for settles what every text that begins with it finds.**  If the query
names a row, of which the table then has one copy, the text is a match of this row and no shorter
than the query.  If it matches several rows, what is found is longer than the query: so an alias
that begins an alias of another row too is never found at its own length.  If it matches no row,
the text finds what the query finds, and this is shorter. -/
theorem longestAbbreviation?_append (C : Catalog) {q : String} (hq : q ≠ "") (t : String) :
    (∀ i, C.resolve q = .unique i → C.rows.count i = 1 ∧
      ∃ a, C.longestAbbreviation? (q ++ t).toList = some a ∧ a.instruction = i ∧
        q.utf8ByteSize ≤ a.byteLength) ∧
    (∀ n, C.resolve q = .ambiguous n →
      ∀ a, C.longestAbbreviation? (q ++ t).toList = some a → q.utf8ByteSize < a.byteLength) ∧
    (∀ k l : Fin C.rows.length, k ≠ l → q ∈ (C.row k).aliases →
      (C.row l).hasAliasStartingWith q = true →
      ∀ a, C.longestAbbreviation? (q ++ t).toList = some a → q.utf8ByteSize < a.byteLength) ∧
    (C.resolve q = .notFound →
      C.longestAbbreviation? (q ++ t).toList = C.longestAbbreviation? q.toList ∧
        ∀ a, C.longestAbbreviation? q.toList = some a → a.byteLength < q.utf8ByteSize) := by
  have hne : q.toList ≠ [] := fun hnil => hq (String.toList_eq_nil_iff.1 hnil)
  have hlonger : 2 ≤ (C.matching q).length →
      ∀ a, C.longestAbbreviation? (q ++ t).toList = some a → q.utf8ByteSize < a.byteLength := by
    intro htwo a ha
    rw [String.toList_append] at ha
    rw [← String.ofList_toList (s := q)] at htwo
    rw [← byteLength_toList]
    exact Catalog.byteLength_lt_of_two_le htwo ha
  refine ⟨fun i hi => ?_, fun n hn => ?_, fun k l hkl hk hl => ?_, fun hnone => ?_⟩
  · have hnames : C.Names q.toList i := by rwa [Catalog.Names, String.ofList_toList]
    obtain ⟨a, ha, hinstruction, hlead⟩ := hnames.exists_longestAbbreviation?_append hne t.toList
    refine ⟨hnames.count_rows, a, by rwa [String.toList_append], hinstruction, ?_⟩
    rw [← byteLength_toList]
    exact byteLength_le_of_prefix hlead
  · obtain ⟨hcount, htwo⟩ := Catalog.resolve_eq_ambiguous_iff.1 hn
    exact hlonger (hcount ▸ htwo)
  · have hown : (C.row k).hasAliasStartingWith q = true :=
      Instruction.hasAliasStartingWith_iff.2 ⟨q, hk, List.prefix_refl _⟩
    exact hlonger (Catalog.two_le_length_matching hkl hown hl)
  · have hnil : C.matching (.ofList q.toList) = [] := by
      rw [String.ofList_toList]
      exact Catalog.resolve_eq_notFound_iff.1 hnone
    rw [String.toList_append, ← byteLength_toList]
    exact ⟨Catalog.longestAbbreviation?_append_of_matching_eq_nil hnil,
      fun a ha => Catalog.byteLength_lt_of_matching_eq_nil hnil ha⟩

/-- An alias of two bytes, a query that starts two aliases, one that is an alias itself, and one
that starts none. -/
theorem longestAbbreviation?_append_gt :
    (∃ a, Catalog.nested.longestAbbreviation? ("λ" ++ "g").toList = some a ∧
        a.instruction = ⟨">", ["gt", "λ"]⟩ ∧ 2 ≤ a.byteLength) ∧
      (∀ a, Catalog.nested.longestAbbreviation? ("g" ++ "teλ").toList = some a →
        1 < a.byteLength) ∧
      (∀ a, Catalog.nested.longestAbbreviation? ("gt" ++ "eλ").toList = some a →
        2 < a.byteLength) ∧
      Catalog.nested.longestAbbreviation? ("gteg" ++ "λ").toList =
        Catalog.nested.longestAbbreviation? "gteg".toList := by
  obtain ⟨hunique, -, -, -⟩ := longestAbbreviation?_append .nested (q := "λ") (by decide) "g"
  obtain ⟨-, hseveral, -, -⟩ := longestAbbreviation?_append .nested (q := "g") (by decide) "teλ"
  obtain ⟨-, -, hshadowed, -⟩ := longestAbbreviation?_append .nested (q := "gt") (by decide) "eλ"
  obtain ⟨-, -, -, hnone⟩ := longestAbbreviation?_append .nested (q := "gteg") (by decide) "λ"
  obtain ⟨-, a, ha, hinstruction, hle⟩ := hunique ⟨">", ["gt", "λ"]⟩ (by decide +kernel)
  refine ⟨⟨a, ha, hinstruction, hle⟩, hseveral 2 (by decide +kernel),
    hshadowed (1 : Fin 2) (0 : Fin 2) (Fin.ne_of_val_ne Nat.one_ne_zero) ?_ (by decide +kernel),
    (hnone (by decide +kernel)).1⟩
  exact List.mem_cons_self

end Mnemonic
