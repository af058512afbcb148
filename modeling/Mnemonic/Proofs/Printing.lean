import Mnemonic.Proofs.LongestMatch
import Mnemonic.Proofs.Lexeme

/-!
# Proofs/Printing — a word printed in glyphs is printed as itself

`Prints C run out` says that the word `run` comes out as the text `out`.  In a **settled** catalog a
glyph either has no character in common with any alias or is the one name of its instruction, and
then what comes out of a word goes through unchanged (`Prints.self`).  The point is that a character
that names nothing still names nothing when glyphs stand behind it (`Prints.prefix_of_alias`).
-/

namespace Mnemonic

namespace Catalog

/-! ## What comes out of a word -/

/-- Whether a word comes out as the text `out`. -/
inductive Prints (C : Catalog) : List Char → List Char → Prop
  | nil : Prints C [] []
  | glyph {w rest out : List Char} {i : Instruction}
      (hw : C.longestAbbreviation? (w ++ rest) = some ⟨w, i⟩) (hrest : Prints C rest out) :
      Prints C (w ++ rest) (i.glyph.toList ++ out)
  | raw {c : Char} {rest out : List Char} (hc : C.longestAbbreviation? (c :: rest) = none)
      (hrest : Prints C rest out) : Prints C (c :: rest) (c :: out)

/-- The text that comes out of a word. -/
def printed (C : Catalog) (run : List Char) : List Char :=
  (C.pieces run).flatMap (·.output.toList)

variable {C : Catalog} {run out : List Char} {i : Instruction}

theorem printed_of_some {w rest : List Char}
    (h : C.longestAbbreviation? (w ++ rest) = some ⟨w, i⟩) :
    C.printed (w ++ rest) = i.glyph.toList ++ C.printed rest := by
  rw [printed, pieces_of_some h, List.flatMap_cons]
  rfl

theorem printed_of_none {c : Char} {rest : List Char}
    (h : C.longestAbbreviation? (c :: rest) = none) :
    C.printed (c :: rest) = c :: C.printed rest := by
  rw [printed, pieces_of_none h, List.flatMap_cons, String.toList_singleton]
  rfl

/-- The text that comes out of a word does come out of it. -/
theorem prints_printed (C : Catalog) (run : List Char) : C.Prints run (C.printed run) := by
  induction run using pieces.induct C with
  | case1 =>
    rw [printed, pieces]
    exact .nil
  | case2 c cs ih =>
    rcases ha : C.longestAbbreviation? (c :: cs) with _ | ⟨w, i⟩
    · rw [firstPiece_of_none ha] at ih
      rw [printed_of_none ha]
      exact .raw ha ih
    · obtain ⟨rest, hrest⟩ : w <+: c :: cs := (longestAbbreviation?_spelling ha).1
      rw [firstPiece_of_some ha, ← hrest, List.drop_left] at ih
      rw [← hrest] at ha ⊢
      rw [printed_of_some ha]
      exact .glyph ha ih

/-- Nothing else comes out of a word. -/
theorem Prints.eq_printed (h : C.Prints run out) : out = C.printed run := by
  induction h with
  | nil =>
    rw [printed, pieces]
    rfl
  | glyph hw _ ih => rw [printed_of_some hw, ← ih]
  | raw hc _ ih => rw [printed_of_none hc, ← ih]

/-- What is cut off a word names a row. -/
theorem mem_rows_of_longestAbbreviation? {text w : List Char}
    (h : C.longestAbbreviation? text = some ⟨w, i⟩) : i ∈ C.rows :=
  (Names.exists_alias (longestAbbreviation?_spelling h).2.2).1

/-! ## Settled catalogs -/

/-- Whether no alias has a character of the glyph of `i`. -/
def Inert (C : Catalog) (i : Instruction) : Prop :=
  ∀ c ∈ i.glyph.toList, ∀ a ∈ C.aliases, c ∉ a.toList

/-- Whether the glyph of `i` is the one name of `i`, which no other alias contains and which names
`i` only from its last character but one on. -/
structure SelfNamed (C : Catalog) (i : Instruction) : Prop where
  names : C.Names i.glyph.toList i
  whole : ∀ a ∈ C.aliases, i.glyph.toList <:+: a.toList → a = i.glyph
  late : ∀ w, C.Names w i → w <+: i.glyph.toList ∧ i.glyph.toList.length ≤ w.length + 1

/-- Whether the glyphs of a catalog can be read back: they are words by themselves, and names get in
the way of none of them. -/
structure Settled (C : Catalog) : Prop where
  glyph_ne_nil : ∀ i ∈ C.rows, i.glyph.toList ≠ []
  glyph_plain : ∀ i ∈ C.rows, ∀ c ∈ i.glyph.toList, isDelimiter c = false ∧ c.isDigit = false
  glyph_settles : ∀ i ∈ C.rows, C.Inert i ∨ C.SelfNamed i
  lambda_notMem : ∀ a ∈ C.aliases, 'λ' ∉ a.toList

/-- A character that no alias has names nothing, whatever follows it. -/
theorem longestAbbreviation?_of_notMem {c : Char} (h : ∀ a ∈ C.aliases, c ∉ a.toList)
    (rest : List Char) : C.longestAbbreviation? (c :: rest) = none := by
  refine longestAbbreviation?_eq_none_iff.2 fun q i hq hne hi => ?_
  obtain ⟨a, ha, hlead⟩ := hi.exists_mem_aliases
  obtain ⟨d, q, rfl⟩ := List.exists_cons_of_ne_nil hne
  obtain ⟨rfl, -⟩ := List.cons_prefix_cons.1 hq
  exact h a ha (hlead.mem List.mem_cons_self)

/-- An inert glyph goes through character by character. -/
theorem prints_inert_append {g : List Char} (hg : ∀ c ∈ g, ∀ a ∈ C.aliases, c ∉ a.toList)
    (hout : C.Prints run out) : C.Prints (g ++ run) (g ++ out) := by
  induction g with
  | nil => exact hout
  | cons c g ih =>
    exact .raw (longestAbbreviation?_of_notMem (hg c List.mem_cons_self) _)
      (ih fun d hd => hg d (List.mem_cons_of_mem c hd))

/-- A glyph that names its own instruction goes through as a whole. -/
theorem SelfNamed.prints_append (h : C.SelfNamed i) (hne : i.glyph.toList ≠ [])
    (hout : C.Prints run out) : C.Prints (i.glyph.toList ++ run) (i.glyph.toList ++ out) := by
  refine .glyph (longestAbbreviation?_eq_some ⟨run, rfl⟩ hne h.names fun w j hw _ hj => ?_) hout
  obtain ⟨a, ha, hlead⟩ := hj.exists_mem_aliases
  have hglyph : a = i.glyph := h.whole a ha (hw.trans hlead).isInfix
  rw [hglyph] at hlead
  exact hlead.eq_of_length (Nat.le_antisymm hlead.length_le hw.length_le)

/-- No character of an alias stands at the head of an inert glyph. -/
theorem Inert.eq_nil_of_prefix (h : C.Inert i) (hne : i.glyph.toList ≠ []) {q : List Char}
    {a : String} (ha : a ∈ C.aliases) (hq : q <+: i.glyph.toList ++ out)
    (hmem : ∀ c ∈ q, c ∈ a.toList) : q = [] := by
  obtain ⟨e, g, hg⟩ := List.exists_cons_of_ne_nil hne
  match q with
  | [] => rfl
  | d :: q =>
    rw [hg, List.cons_append] at hq
    obtain ⟨rfl, -⟩ := List.cons_prefix_cons.1 hq
    exact absurd (hmem d List.mem_cons_self) (h d (hg ▸ List.mem_cons_self) a ha)

/-- The whole of a glyph that is a name is no later part of an alias, and of what is shorter
nothing comes out that was not typed. -/
theorem SelfNamed.prefix_of_alias (h : C.SelfNamed i) {w front q : List Char} {a : String}
    (hw : C.Names w i) (ha : a ∈ C.aliases) (hfront : front ≠ [])
    (hq : q <+: i.glyph.toList ++ out) (halias : front ++ q <+: a.toList) : q <+: w := by
  obtain ⟨hwglyph, hlate⟩ := h.late w hw
  have hglyph : i.glyph.toList <+: i.glyph.toList ++ out := List.prefix_append _ _
  rcases Nat.lt_or_ge q.length i.glyph.toList.length with hlt | hge
  · have hqglyph := List.prefix_of_prefix_length_le hq hglyph (Nat.le_of_lt hlt)
    exact List.prefix_of_prefix_length_le hqglyph hwglyph (by omega)
  · have hqglyph := List.prefix_of_prefix_length_le hglyph hq hge
    have hwithin : i.glyph.toList <:+: a.toList :=
      (hqglyph.isInfix.trans (List.suffix_append front q).isInfix).trans halias.isInfix
    have hlen := halias.length_le
    rw [h.whole a ha hwithin, List.length_append] at hlen
    have hpos := List.length_pos_iff.2 hfront
    omega

/-- **No glyph completes a name.**  What an alias goes on with after `front`, if it is found at the
start of what comes out of a word, was already at the start of that word. -/
theorem Prints.prefix_of_alias (hC : C.Settled) (h : C.Prints run out) {front q : List Char}
    {a : String} (ha : a ∈ C.aliases) (hfront : front ≠ []) (hq : q <+: out)
    (halias : front ++ q <+: a.toList) : q <+: run := by
  induction h generalizing front q with
  | nil => exact hq
  | @glyph w rest out i hw _ ih =>
    have hrow := mem_rows_of_longestAbbreviation? hw
    rcases hC.glyph_settles i hrow with hinert | hself
    · rw [hinert.eq_nil_of_prefix (hC.glyph_ne_nil i hrow) ha hq fun c hc =>
        halias.mem (List.mem_append_right front hc)]
      exact List.nil_prefix
    · have hqw := hself.prefix_of_alias (longestAbbreviation?_spelling hw).2.2 ha hfront hq halias
      exact hqw.trans (List.prefix_append w rest)
  | @raw c rest out _ _ ih =>
    match q with
    | [] => exact List.nil_prefix
    | d :: q =>
      obtain ⟨rfl, hqout⟩ := List.cons_prefix_cons.1 hq
      rw [List.append_cons] at halias
      have hne : front ++ [d] ≠ [] := List.append_ne_nil_of_right_ne_nil _ (List.cons_ne_nil d [])
      exact List.cons_prefix_cons.2 ⟨rfl, ih hne hqout halias⟩

/-- **What comes out of a word goes through unchanged.** -/
theorem Prints.self (hC : C.Settled) (h : C.Prints run out) : C.Prints out out := by
  induction h with
  | nil => exact .nil
  | @glyph w rest out i hw _ ih =>
    have hrow := mem_rows_of_longestAbbreviation? hw
    rcases hC.glyph_settles i hrow with hinert | hself
    · exact prints_inert_append hinert ih
    · exact hself.prints_append (hC.glyph_ne_nil i hrow) ih
  | @raw c rest out hc hrest ih =>
    refine .raw (longestAbbreviation?_eq_none_iff.2 fun q i hq hne hi => ?_) ih
    obtain ⟨a, ha, halias⟩ := hi.exists_mem_aliases
    obtain ⟨d, q, rfl⟩ := List.exists_cons_of_ne_nil hne
    obtain ⟨rfl, hqout⟩ := List.cons_prefix_cons.1 hq
    have hrun : q <+: rest := hrest.prefix_of_alias hC ha (List.cons_ne_nil d []) hqout halias
    exact longestAbbreviation?_eq_none_iff.1 hc _ i (List.cons_prefix_cons.2 ⟨rfl, hrun⟩) hne hi

theorem printed_printed (hC : C.Settled) (run : List Char) :
    C.printed (C.printed run) = C.printed run :=
  ((prints_printed C run).self hC).eq_printed.symm

/-! ## Words come out as words -/

/-- Without delimiters in a word none come out of it. -/
theorem Prints.isDelimiter_eq_false (hC : C.Settled) (h : C.Prints run out)
    (hrun : ∀ c ∈ run, isDelimiter c = false) : ∀ c ∈ out, isDelimiter c = false := by
  induction h with
  | nil => exact hrun
  | @glyph w rest out i hw _ ih =>
    have hrow := mem_rows_of_longestAbbreviation? hw
    intro c hc
    rcases List.mem_append.1 hc with hc | hc
    · exact (hC.glyph_plain i hrow c hc).1
    · exact ih (fun d hd => hrun d (List.mem_append_right w hd)) c hc
  | @raw c rest out _ _ ih =>
    intro d hd
    rcases List.mem_cons.1 hd with rfl | hd
    · exact hrun d List.mem_cons_self
    · exact ih (fun e he => hrun e (List.mem_cons_of_mem c he)) d hd

/-- A glyph is a word by itself. -/
theorem Settled.exists_glyph_eq (hC : C.Settled) (hi : i ∈ C.rows) :
    ∃ c g, i.glyph.toList = c :: g ∧ Segment.opensWord c = true ∧
      ∀ d ∈ g, isDelimiter d = false := by
  obtain ⟨c, g, hg⟩ := List.exists_cons_of_ne_nil (hC.glyph_ne_nil i hi)
  have hplain := hC.glyph_plain i hi
  rw [hg] at hplain
  obtain ⟨hdelimiter, hdigit⟩ := hplain c List.mem_cons_self
  refine ⟨c, g, hg, Segment.opensWord_iff.2 ⟨.inr hdelimiter, hdigit⟩, fun d hd => ?_⟩
  exact (hplain d (List.mem_cons_of_mem c hd)).1

/-- **A word comes out as a word**, and with a lambda at its head if it had one there. -/
theorem Prints.exists_word (hC : C.Settled) {c : Char} {tail : List Char}
    (h : C.Prints (c :: tail) out) (hc : Segment.opensWord c = true)
    (ht : ∀ d ∈ tail, isDelimiter d = false) :
    ∃ c' tail', out = c' :: tail' ∧ Segment.opensWord c' = true ∧
      (∀ d ∈ tail', isDelimiter d = false) ∧ (c = 'λ' → c' = 'λ') := by
  generalize hrun : c :: tail = run at h
  match h with
  | @Prints.glyph _ w rest out i hw hrest =>
    obtain ⟨-, hne, hnames⟩ := longestAbbreviation?_spelling hw
    obtain ⟨d, w, rfl⟩ := List.exists_cons_of_ne_nil hne
    obtain ⟨rfl, rfl⟩ := List.cons.inj hrun
    obtain ⟨e, g, hg, he, hplain⟩ := hC.exists_glyph_eq (mem_rows_of_longestAbbreviation? hw)
    rw [hg]
    refine ⟨e, g ++ out, rfl, he, fun d hd => ?_, ?_⟩
    · rcases List.mem_append.1 hd with hd | hd
      · exact hplain d hd
      · exact hrest.isDelimiter_eq_false hC (fun d hd => ht d (List.mem_append_right w hd)) d hd
    · rintro rfl
      obtain ⟨a, ha, halias⟩ := Names.exists_mem_aliases hnames
      exact absurd (halias.mem List.mem_cons_self) (hC.lambda_notMem a ha)
  | .raw hc' hrest =>
    obtain ⟨rfl, rfl⟩ := List.cons.inj hrun
    exact ⟨c, _, rfl, hc, hrest.isDelimiter_eq_false hC ht, id⟩

end Catalog

end Mnemonic
