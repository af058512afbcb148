import Mathlib.Data.Finset.Card
import Mathlib.Data.Fintype.Basic
import Mnemonic.Proofs.TableOrder

/-!
# Proofs/Verdict — the verdict on a query counts rows

The **owners** of a query are the places of the table whose row has an alias that begins with it.
A place counts once, however many such aliases its row has; equal rows at two places are two owners.
Their number is the verdict (`resolve_eq_unique_iff_owners`, `card_owners`), and behind a query they
only become fewer (`owners_append_subset`).  A row that has the query itself for an alias is one of
them, so the query names this row when it has no other owner (`resolve_counts_owners`).
-/

namespace Mnemonic

namespace Catalog

variable {C : Catalog} {q : String} {i : Instruction} {k : Fin C.rows.length}

/-- The places of the rows that have an alias which begins with `query`. -/
def owners (C : Catalog) (query : String) : Finset (Fin C.rows.length) :=
  {k | ∃ a ∈ (C.row k).aliases, query.toList <+: a.toList}

theorem mem_owners_iff : k ∈ C.owners q ↔ ∃ a ∈ (C.row k).aliases, q.toList <+: a.toList :=
  Finset.mem_filter_univ k

theorem mem_owners_of_mem_aliases (h : q ∈ (C.row k).aliases) : k ∈ C.owners q :=
  mem_owners_iff.2 ⟨q, h, List.prefix_refl _⟩

/-! ## Counting -/

theorem toFinset_placesOf (C : Catalog) (q : String) : (C.placesOf q).toFinset = C.owners q := by
  ext k
  rw [List.mem_toFinset, mem_placesOf_iff, Instruction.hasAliasStartingWith_iff, mem_owners_iff]

/-- **There are as many owners as matching rows.** -/
theorem card_owners (C : Catalog) (q : String) : (C.owners q).card = (C.matching q).length := by
  rw [← toFinset_placesOf, List.toFinset_card_of_nodup (C.nodup_placesOf q), ← map_row_placesOf,
    List.length_map]

theorem placesOf_eq_singleton_iff : C.placesOf q = [k] ↔ C.owners q = {k} := by
  rw [← toFinset_placesOf]
  constructor
  · intro h
    rw [h, List.toFinset_cons, List.toFinset_nil, insert_empty_eq]
  · intro h
    have hperm : (C.placesOf q).Perm [k] :=
      (List.perm_ext_iff_of_nodup (C.nodup_placesOf q) (List.nodup_singleton k)).2 fun l => by
        rw [← List.mem_toFinset, h, Finset.mem_singleton, List.mem_singleton]
    exact List.perm_singleton.1 hperm

theorem resolve_eq_notFound_iff_owners : C.resolve q = .notFound ↔ C.owners q = ∅ := by
  rw [resolve_eq_notFound_iff, ← List.length_eq_zero_iff, ← card_owners, Finset.card_eq_zero]

theorem resolve_eq_unique_iff_owners :
    C.resolve q = .unique i ↔ ∃ k, C.owners q = {k} ∧ C.row k = i := by
  rw [resolve_eq_unique_iff, ← map_row_placesOf, List.map_eq_singleton_iff]
  exact exists_congr fun k => and_congr_left' placesOf_eq_singleton_iff

theorem resolve_eq_ambiguous_iff_owners {n : Nat} :
    C.resolve q = .ambiguous n ↔ (C.owners q).card = n ∧ 2 ≤ n := by
  rw [resolve_eq_ambiguous_iff, card_owners]

/-- An owner is named when there is no other. -/
theorem resolve_eq_unique_row_iff (hk : k ∈ C.owners q) :
    C.resolve q = .unique (C.row k) ↔ ∀ l, l ≠ k → l ∉ C.owners q := by
  rw [resolve_eq_unique_iff_owners]
  constructor
  · rintro ⟨j, hj, -⟩ l hlk hl
    rw [hj, Finset.mem_singleton] at hk hl
    exact hlk (hl.trans hk.symm)
  · intro hother
    refine ⟨k, Finset.eq_singleton_iff_unique_mem.2 ⟨hk, fun l hl => ?_⟩, rfl⟩
    by_contra hlk
    exact hother l hlk hl

/-! ## Longer queries -/

/-- **Behind a query its owners only become fewer.** -/
theorem owners_append_subset (C : Catalog) (q x : String) : C.owners (q ++ x) ⊆ C.owners q := by
  intro k hk
  obtain ⟨a, ha, hlead⟩ := mem_owners_iff.1 hk
  rw [String.toList_append] at hlead
  exact mem_owners_iff.2 ⟨a, ha, (List.prefix_append _ _).trans hlead⟩

theorem resolve_append_of_notFound (h : C.resolve q = .notFound) (x : String) :
    C.resolve (q ++ x) = .notFound := by
  have hsub := C.owners_append_subset q x
  rw [resolve_eq_notFound_iff_owners.1 h, Finset.subset_empty] at hsub
  exact resolve_eq_notFound_iff_owners.2 hsub

theorem resolve_append_of_unique (h : C.resolve q = .unique i) (x : String) :
    C.resolve (q ++ x) = .unique i ∨ C.resolve (q ++ x) = .notFound := by
  obtain ⟨k, hk, hrow⟩ := resolve_eq_unique_iff_owners.1 h
  have hsub := C.owners_append_subset q x
  rw [hk, Finset.subset_singleton_iff] at hsub
  rcases hsub with hnone | hsame
  · exact .inr (resolve_eq_notFound_iff_owners.2 hnone)
  · exact .inl (resolve_eq_unique_iff_owners.2 ⟨k, hsame, hrow⟩)

theorem resolve_append_of_ambiguous {n : Nat} (h : C.resolve q = .ambiguous n) (x : String) :
    (∃ m ≤ n, C.resolve (q ++ x) = .ambiguous m) ∨
      (∃ k ∈ C.owners q, C.resolve (q ++ x) = .unique (C.row k)) ∨
      C.resolve (q ++ x) = .notFound := by
  have hsub := C.owners_append_subset q x
  match hx : C.resolve (q ++ x) with
  | .notFound => exact .inr (.inr rfl)
  | .unique i =>
    obtain ⟨k, hk, rfl⟩ := resolve_eq_unique_iff_owners.1 hx
    rw [hk, Finset.singleton_subset_iff] at hsub
    exact .inr (.inl ⟨k, hsub, rfl⟩)
  | .ambiguous m =>
    have hle := Finset.card_le_card hsub
    rw [(resolve_eq_ambiguous_iff_owners.1 hx).1, (resolve_eq_ambiguous_iff_owners.1 h).1] at hle
    exact .inl ⟨m, hle, rfl⟩

/-! ## Whole aliases -/

/-- The row found by an alias has it. -/
theorem mem_of_findByAlias? (h : C.findByAlias? q = some i) : i ∈ C.rows ∧ q ∈ i.aliases := by
  rw [findByAlias?] at h
  have halias := List.find?_some h
  exact ⟨List.mem_of_find?_eq_some h, List.contains_iff_mem.1 halias⟩

end Catalog

/-- **The verdict on a query is the number of its owners**: nothing without one, the row of a single
one, and their number where there are several.  A longer query has no owner that the query has not,
so what is not found stays so, a name stays one until nothing is found, and fewer rows share it.  A
row that is found by the query as an alias is an owner, and named if it is the only one. -/
theorem resolve_counts_owners (C : Catalog) (q : String) :
    (C.resolve q = .notFound ↔ (C.owners q).card = 0) ∧
    (∀ i, C.resolve q = .unique i ↔ ∃ k, C.owners q = {k} ∧ C.row k = i) ∧
    (∀ n, C.resolve q = .ambiguous n ↔ (C.owners q).card = n ∧ 2 ≤ n) ∧
    (∀ x, C.owners (q ++ x) ⊆ C.owners q ∧
      (C.resolve q = .notFound → C.resolve (q ++ x) = .notFound) ∧
      (∀ i, C.resolve q = .unique i →
        C.resolve (q ++ x) = .unique i ∨ C.resolve (q ++ x) = .notFound) ∧
      ∀ n, C.resolve q = .ambiguous n →
        (∃ m ≤ n, C.resolve (q ++ x) = .ambiguous m) ∨
          (∃ k ∈ C.owners q, C.resolve (q ++ x) = .unique (C.row k)) ∨
          C.resolve (q ++ x) = .notFound) ∧
    ∀ i, C.findByAlias? q = some i →
      i ∈ C.rows ∧ C.resolve q ≠ .notFound ∧
        ∀ k, C.row k = i → (C.resolve q = .unique i ↔ ∀ l, l ≠ k → l ∉ C.owners q) := by
  refine ⟨?_, fun i => Catalog.resolve_eq_unique_iff_owners,
    fun n => Catalog.resolve_eq_ambiguous_iff_owners, fun x => ?_, fun i hi => ?_⟩
  · rw [Catalog.resolve_eq_notFound_iff_owners, Finset.card_eq_zero]
  · exact ⟨C.owners_append_subset q x, fun h => Catalog.resolve_append_of_notFound h x,
      fun i h => Catalog.resolve_append_of_unique h x,
      fun n h => Catalog.resolve_append_of_ambiguous h x⟩
  · obtain ⟨hrow, halias⟩ := Catalog.mem_of_findByAlias? hi
    have howner : ∀ k, C.row k = i → k ∈ C.owners q := fun k hk =>
      Catalog.mem_owners_of_mem_aliases (hk ▸ halias)
    refine ⟨hrow, fun hnone => ?_, fun k hk => ?_⟩
    · obtain ⟨k, hk⟩ := List.get_of_mem hrow
      have hmem := howner k hk
      rw [Catalog.resolve_eq_notFound_iff_owners.1 hnone] at hmem
      exact Finset.notMem_empty k hmem
    · rw [← hk]
      exact Catalog.resolve_eq_unique_row_iff (howner k hk)

/-- Two aliases of one row, two equal rows, a row without aliases and an empty alias. -/
def Catalog.repeatedRows : Catalog :=
  ⟨[⟨">=", ["gte", "gtx", ""]⟩, ⟨">", ["gt"]⟩, ⟨"∅", []⟩, ⟨">", ["gt"]⟩]⟩

/-- Equal rows are two owners and aliases of one row are not, so an alias can be ambiguous where a
longer query names a row; and what is not found stays so. -/
theorem resolve_counts_owners_gt :
    Catalog.repeatedRows.resolve "gt" = .ambiguous 3 ∧
      Catalog.repeatedRows.resolve "gt" ≠ .unique ⟨">", ["gt"]⟩ ∧
      Catalog.repeatedRows.resolve "gtx" = .unique ⟨">=", ["gte", "gtx", ""]⟩ ∧
      Catalog.repeatedRows.resolve ("gty" ++ "x") = .notFound := by
  obtain ⟨-, -, hcount, -, hfound⟩ := resolve_counts_owners .repeatedRows "gt"
  obtain ⟨-, hname, -⟩ := resolve_counts_owners .repeatedRows "gtx"
  obtain ⟨hnone, -, -, hlonger, -⟩ := resolve_counts_owners .repeatedRows "gty"
  obtain ⟨-, -, hsingle⟩ := hfound ⟨">", ["gt"]⟩ (by decide +kernel)
  refine ⟨(hcount 3).2 (by decide +kernel), fun hunique => ?_,
    (hname _).2 ⟨⟨0, by decide⟩, by decide +kernel, rfl⟩,
    (hlonger "x").2.1 (hnone.2 (by decide +kernel))⟩
  exact (hsingle ⟨1, by decide⟩ rfl).1 hunique ⟨3, by decide⟩ (by decide) (by decide +kernel)

end Mnemonic
