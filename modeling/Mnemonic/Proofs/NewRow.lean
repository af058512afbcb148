import Mnemonic.Proofs.Agreement
import Mnemonic.Proofs.LongestMatch

/-!
# Proofs/NewRow — a table with one row more

A new row is seen only where one of its aliases begins.  A part of a word that resolves begins with
a character of the word; so if no character of a word is the first of an alias of the new row, the
word is cut as it was without it (`pieces_insertRow`), however long these aliases are and wherever
the row stands.  Elsewhere a query has one matching row more at most (`length_matching_insertRow`),
and the new row takes no name from an old one but by sharing it (`tokenize_insertRow`).
-/

namespace Mnemonic

open Segment (Leads)

/-- The first characters of the aliases; an empty alias has none. -/
def Instruction.initials (i : Instruction) : List Char :=
  i.aliases.filterMap fun a => a.toList.head?

/-- An alias that starts with some characters has the first of them for its first. -/
theorem Instruction.hasAliasStartingWith_eq_false {r : Instruction} {c : Char}
    (hc : c ∉ r.initials) (cs : List Char) :
    r.hasAliasStartingWith (.ofList (c :: cs)) = false := by
  refine Bool.eq_false_iff.2 fun hstart => hc ?_
  obtain ⟨a, ha, hlead⟩ := hasAliasStartingWith_iff.1 hstart
  rw [String.toList_ofList] at hlead
  obtain ⟨more, hmore⟩ := hlead
  exact List.mem_filterMap.2 ⟨a, ha, hmore ▸ rfl⟩

namespace Catalog

variable {C : Catalog} {k : Nat} {r i : Instruction} {q : String} {c : Char} {cs run : List Char}

/-- The table with the row `r` put in behind its first `k` rows. -/
def insertRow (C : Catalog) (k : Nat) (r : Instruction) : Catalog :=
  ⟨C.rows.take k ++ r :: C.rows.drop k⟩

/-! ## Queries -/

theorem matching_eq_take_append_drop (C : Catalog) (k : Nat) (q : String) :
    C.matching q = (C.rows.take k).filter (·.hasAliasStartingWith q) ++
      (C.rows.drop k).filter (·.hasAliasStartingWith q) := by
  rw [← List.filter_append, List.take_append_drop]
  rfl

theorem matching_insertRow (C : Catalog) (k : Nat) (r : Instruction) (q : String) :
    (C.insertRow k r).matching q = (C.rows.take k).filter (·.hasAliasStartingWith q) ++
      if r.hasAliasStartingWith q then r :: (C.rows.drop k).filter (·.hasAliasStartingWith q)
      else (C.rows.drop k).filter (·.hasAliasStartingWith q) := by
  rw [matching, insertRow, List.filter_append, List.filter_cons]

/-- A query that begins no alias of the new row matches the old rows. -/
theorem matching_insertRow_of_eq_false (h : r.hasAliasStartingWith q = false) :
    (C.insertRow k r).matching q = C.matching q := by
  rw [matching_insertRow, if_neg (Bool.eq_false_iff.1 h), ← matching_eq_take_append_drop]

/-- The old rows that match a query match it still. -/
theorem matching_sublist_insertRow (C : Catalog) (k : Nat) (r : Instruction) (q : String) :
    (C.matching q).Sublist ((C.insertRow k r).matching q) := by
  rw [matching_eq_take_append_drop C k, matching_insertRow]
  refine (List.Sublist.refl _).append ?_
  split
  · exact List.sublist_cons_self r _
  · exact List.Sublist.refl _

/-- **A new row is one matching row more, or none.** -/
theorem length_matching_insertRow (C : Catalog) (k : Nat) (r : Instruction) (q : String) :
    ((C.insertRow k r).matching q).length =
      (C.matching q).length + if r.hasAliasStartingWith q then 1 else 0 := by
  split
  · rename_i h
    rw [matching_insertRow, if_pos h, matching_eq_take_append_drop C k, List.length_append,
      List.length_append, List.length_cons, Nat.add_assoc]
  · rename_i h
    rw [matching_insertRow_of_eq_false (Bool.eq_false_iff.2 h), Nat.add_zero]

/-- What several rows share stays shared. -/
theorem resolve_insertRow_of_ambiguous {n : Nat} (h : C.resolve q = .ambiguous n) :
    (C.insertRow k r).resolve q = .ambiguous n ∨
      (C.insertRow k r).resolve q = .ambiguous (n + 1) := by
  obtain ⟨hcount, htwo⟩ := resolve_eq_ambiguous_iff.1 h
  have hlen := C.length_matching_insertRow k r q
  rw [resolve_eq_ambiguous_iff, resolve_eq_ambiguous_iff, hlen, hcount]
  split
  · exact .inr ⟨rfl, Nat.le_succ_of_le htwo⟩
  · exact .inl ⟨rfl, htwo⟩

/-- What names an old row has named it before. -/
theorem resolve_of_insertRow (hrow : i ∈ C.rows) (h : (C.insertRow k r).resolve q = .unique i) :
    C.resolve q = .unique i := by
  have hmatching := resolve_eq_unique_iff.1 h
  have hsub := C.matching_sublist_insertRow k r q
  rw [hmatching, List.sublist_singleton] at hsub
  refine resolve_eq_unique_iff.2 (hsub.resolve_left (List.ne_nil_of_mem (a := i) ?_))
  have hi : i ∈ (C.insertRow k r).matching q := hmatching ▸ List.mem_singleton_self i
  exact List.mem_filter.2 ⟨hrow, (List.mem_filter.1 hi).2⟩

/-! ## Words -/

theorem names_insertRow_iff (hc : c ∉ r.initials) :
    (C.insertRow k r).Names (c :: cs) i ↔ C.Names (c :: cs) i := by
  rw [Names, Names, resolve_eq_unique_iff, resolve_eq_unique_iff,
    matching_insertRow_of_eq_false (Instruction.hasAliasStartingWith_eq_false hc cs)]

/-- A text that begins no alias of the new row is searched as before. -/
theorem longestAbbreviation?_insertRow (hc : c ∉ r.initials) :
    (C.insertRow k r).longestAbbreviation? (c :: cs) = C.longestAbbreviation? (c :: cs) := by
  refine longestAbbreviation?_eq_of_names fun w i hne => and_congr_right fun hw => ?_
  obtain ⟨d, ds, rfl⟩ := List.exists_cons_of_ne_nil hne
  obtain ⟨rfl, -⟩ := List.cons_prefix_cons.1 hw
  exact names_insertRow_iff hc

/-- **A word without a first character of an alias of the new row is cut as before.** -/
theorem pieces_insertRow (h : ∀ c ∈ run, c ∉ r.initials) :
    (C.insertRow k r).pieces run = C.pieces run := by
  refine pieces_congr fun c cs hcs => ?_
  rw [firstPiece, firstPiece, longestAbbreviation?_insertRow (h c (hcs.subset List.mem_cons_self))]

end Catalog

/-- **A new row changes nothing away from its initials**: a source is read as before, or fails as
before, if none of its words has a first character of an alias of the row.  Whatever the query, it
has as many matching rows as before or one more; what several rows share stays shared, and what
names an old row has named it before. -/
theorem tokenize_insertRow (C : Catalog) (k : Nat) (r : Instruction) :
    (∀ policy source,
      (∀ ss left run, Leads policy source.toList ss left → Segment.word run ∈ ss →
        ∀ c ∈ run, c ∉ r.initials) →
      tokenize (C.insertRow k r) policy source = tokenize C policy source) ∧
    ∀ q,
      ((C.insertRow k r).matching q).length =
        (C.matching q).length + (if r.hasAliasStartingWith q then 1 else 0) ∧
      (∀ n, C.resolve q = .ambiguous n →
        (C.insertRow k r).resolve q = .ambiguous n ∨
          (C.insertRow k r).resolve q = .ambiguous (n + 1)) ∧
      ∀ i ∈ C.rows, (C.insertRow k r).resolve q = .unique i → C.resolve q = .unique i := by
  refine ⟨fun policy source hwords => ?_, fun q => ⟨?_, fun n hn => ?_, fun i hrow hi => ?_⟩⟩
  · exact tokenize_congr fun ss left run hleads hrun =>
      Catalog.pieces_insertRow (hwords ss left run hleads hrun)
  · exact C.length_matching_insertRow k r q
  · exact Catalog.resolve_insertRow_of_ambiguous hn
  · exact Catalog.resolve_of_insertRow hrow hi

/-- The new row has an old glyph, an alias longer than all others and an empty one; its initial
stands in a comment and in a string. -/
theorem tokenize_insertRow_wave :
    tokenize ((⟨[⟨"⊻", ["xor"]⟩, ⟨"∃", ["any"]⟩]⟩ : Catalog).insertRow 1 ⟨"⊻", ["waves", ""]⟩)
        .reject "x#w\n\"w\"a" =
      tokenize ⟨[⟨"⊻", ["xor"]⟩, ⟨"∃", ["any"]⟩]⟩ .reject "x#w\n\"w\"a" := by
  have hfirst : (Segment.word ['x']).Fits .reject ['#', 'w', '\n', '"', 'w', '"', 'a'] := by
    refine .word (by decide) (fun _ hd => nomatch hd) fun d hd => ?_
    obtain rfl := Option.some.inj hd
    decide
  have hcomment : (Segment.comment ['w'] true).Fits .reject ['"', 'w', '"', 'a'] :=
    .comment (by decide)
  have hstring : (Segment.string ['w'] true).Fits .reject ['a'] := .string (by decide)
  have hlast : (Segment.word ['a']).Fits .reject [] :=
    .word (by decide) (fun _ hd => nomatch hd) fun _ hd => nomatch hd
  have hall : Leads .reject "x#w\n\"w\"a".toList
      [.word ['x'], .comment ['w'] true, .string ['w'] true, .word ['a']] [] := by
    rw [String.toList_ofList]
    exact .cons hfirst (.cons hcomment (.cons hstring (.cons hlast .nil)))
  refine (tokenize_insertRow _ 1 ⟨"⊻", ["waves", ""]⟩).1 .reject _ fun ss left run hleads hrun => ?_
  obtain ⟨more, hmore⟩ := hleads.exists_append_eq hall (.inl rfl)
  have hmem := List.mem_append_left more hrun
  rw [hmore] at hmem
  have hcases : run = ['x'] ∨ run = ['a'] := by simpa using hmem
  rcases hcases with rfl | rfl <;> exact List.forall_mem_singleton.2 (by decide)

end Mnemonic
