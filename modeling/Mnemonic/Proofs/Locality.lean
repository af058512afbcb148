import Mathlib.Data.List.Infix
import Mnemonic.Proofs.Munch

/-!
# Proofs/Locality — a run is cut by what stands near

A piece is cut with an eye on what follows it, since a longer part of the run might name something.
Two facts say how far this goes.  What a piece is cut from does not matter behind its end, once the
piece is known: so a run can be taken apart at the ends of its own operators (`decompose_append`).
And no part longer than the longest alias names anything: so a change in a run leaves the operators
alone that begin at least so many characters before it (`decompose_lookahead`).

Both come from `longestAbbreviation?_congr`: texts that share the starts that name something are
searched alike.
-/

namespace Mnemonic

namespace Catalog

variable {C : Catalog} {a b w text run : List Char} {qs rs : List Piece} {start : Position}

/-! ## Runs cut off behind a piece -/

/-- **What is found stays the same when the text is cut off behind it.** -/
theorem longestAbbreviation?_of_prefix {found : Abbreviation}
    (h : C.longestAbbreviation? text = some found) (hlead : found.spelling <+: w)
    (hw : w <+: text) : C.longestAbbreviation? w = some found := by
  rw [← h]
  refine longestAbbreviation?_congr fun v j hj => ?_
  exact ⟨fun hv => hv.trans hw, fun hv => (hj.prefix_spelling hv h).trans hlead⟩

/-- Where nothing is found, nothing is found in a start of the text. -/
theorem longestAbbreviation?_eq_none_of_prefix (h : C.longestAbbreviation? text = none)
    (hw : w <+: text) : C.longestAbbreviation? w = none := by
  have hnone := longestAbbreviation?_eq_none_iff.1 h
  exact longestAbbreviation?_eq_none_iff.2 fun v j hv hne => hnone v j (hv.trans hw) hne

/-- **What is cut off a run is cut as it would be by itself.** -/
theorem pieces_text_left (h : C.pieces run = qs ++ rs) : C.pieces (Piece.text qs) = qs := by
  induction qs generalizing run with
  | nil => exact pieces_eq_nil_iff.2 rfl
  | cons q qs ih =>
    have hrun : Piece.text (q :: qs) <+: run := by
      rw [← C.text_pieces run, h, Piece.text_append]
      exact List.prefix_append _ _
    cases run with
    | nil =>
      rw [pieces] at h
      cases h
    | cons c cs =>
      -- The pieces hold the first one whole, so the search finds the same in them as in the run.
      rcases hfound : C.longestAbbreviation? (c :: cs) with _ | ⟨w, i⟩
      · rw [pieces_of_none hfound] at h
        obtain ⟨rfl, htail⟩ := List.cons.inj h
        have hnone := longestAbbreviation?_eq_none_of_prefix hfound hrun
        exact (pieces_of_none hnone).trans (congrArg _ (ih htail))
      · obtain ⟨rest, hrest⟩ := (longestAbbreviation?_spelling hfound).1
        change w ++ rest = c :: cs at hrest
        rw [← hrest] at h hfound hrun
        rw [pieces_of_some hfound] at h
        obtain ⟨rfl, htail⟩ := List.cons.inj h
        have hsome := longestAbbreviation?_of_prefix hfound (List.prefix_append w _) hrun
        exact (pieces_of_some hsome).trans (congrArg _ (ih htail))

/-- **A run is cut at the end of `a` if some operator begins or ends there.** -/
theorem exists_pieces_append
    (h : a = [] ∨ b = [] ∨ ∃ t ∈ Piece.row start (C.pieces (a ++ b)),
      t.span.start.offset = start.offset + a.length ∨
        t.span.stop.offset = start.offset + a.length) :
    ∃ qs rs, C.pieces (a ++ b) = qs ++ rs ∧ (Piece.text qs).length = a.length := by
  obtain rfl | rfl | ⟨t, ht, hplace⟩ := h
  · exact ⟨[], C.pieces b, rfl, rfl⟩
  · refine ⟨C.pieces (a ++ []), [], (List.append_nil _).symm, ?_⟩
    rw [text_pieces, List.append_nil]
  · obtain ⟨qs, p, rs, hpieces, rfl⟩ := Piece.mem_row_iff.1 ht
    rcases hplace with hstart | hstop
    · exact ⟨qs, p :: rs, hpieces, Nat.add_left_cancel hstart⟩
    · refine ⟨qs ++ [p], rs, by rw [hpieces, List.append_assoc]; rfl, ?_⟩
      have hlen : start.offset + (Piece.text qs).length + p.source.length =
        start.offset + a.length := hstop
      have hp : (Piece.text [p]).length = p.source.length := Piece.length_text_cons p []
      rw [Piece.text_append, List.length_append, hp]
      omega

/-- **Where a run is cut, its two parts are cut by themselves.** -/
theorem pieces_append (h : C.pieces (a ++ b) = qs ++ rs)
    (hlen : (Piece.text qs).length = a.length) :
    C.pieces a = qs ∧ C.pieces b = rs := by
  have htext : Piece.text qs ++ Piece.text rs = a ++ b := by
    rw [← Piece.text_append, ← h, text_pieces]
  obtain ⟨rfl, rfl⟩ := List.append_inj htext hlen
  exact ⟨pieces_text_left h, pieces_text_right h⟩

end Catalog

/-- **A run may be taken apart at the ends of its own operators**: if one of them begins or ends
behind the characters `a`, the whole run has the operators of `a`, and then those of the rest as it
stands behind `a`. -/
theorem decompose_append {C : Catalog} {start : Position} {a b : List Char} {ts : List Token}
    (hroom : start.HasRoom (a ++ b).length) (hts : C.decompose (a ++ b) start = .ok ts)
    (hcut : a = [] ∨ b = [] ∨ ∃ t ∈ ts, t.span.start.offset = start.offset + a.length ∨
      t.span.stop.offset = start.offset + a.length) :
    ∃ mid us vs, start.advance a.length = .ok mid ∧ C.decompose a start = .ok us ∧
      C.decompose b mid = .ok vs ∧ ts = us ++ vs := by
  obtain rfl := Piece.eq_row_of_place hts
  obtain ⟨qs, rs, hpieces, hlen⟩ := Catalog.exists_pieces_append hcut
  obtain ⟨hqs, hrs⟩ := Catalog.pieces_append hpieces hlen
  rw [List.length_append] at hroom
  have ha : start.HasRoom a.length := hroom.of_le (Nat.le_add_right _ _)
  have hb : (start.along a.length).HasRoom b.length := Position.hasRoom_along_iff.2 hroom
  refine ⟨_, _, _, Position.advance_of_hasRoom ha, Catalog.decompose_of_hasRoom ha,
    Catalog.decompose_of_hasRoom hb, ?_⟩
  rw [hpieces, Piece.row_append, hlen, hqs, hrs]

/-- The run is taken apart in front of a row that its first characters would not tell from another,
behind an alias of two bytes. -/
theorem decompose_append_gte :
    ∃ mid us vs, (⟨7, 2, 3⟩ : Position).advance "gteλ".toList.length = .ok mid ∧
      Catalog.nested.decompose "gteλ".toList ⟨7, 2, 3⟩ = .ok us ∧
      Catalog.nested.decompose "gte".toList mid = .ok vs ∧
      [⟨.operator, ">=", ⟨⟨7, 2, 3⟩, ⟨10, 2, 6⟩⟩⟩, ⟨.operator, ">", ⟨⟨10, 2, 6⟩, ⟨11, 2, 7⟩⟩⟩,
        ⟨.operator, ">=", ⟨⟨11, 2, 7⟩, ⟨14, 2, 10⟩⟩⟩] = us ++ vs :=
  decompose_append (by decide +kernel) (by decide +kernel)
    (.inr (.inr ⟨⟨.operator, ">", ⟨⟨10, 2, 6⟩, ⟨11, 2, 7⟩⟩⟩, by decide, .inr (by decide +kernel)⟩))

namespace Catalog

variable {C : Catalog} {a w : List Char} {i : Instruction} {qs : List Piece} {start : Position}

/-! ## Runs that agree up to a place -/

/-- **The search looks no further than the longest alias reaches.** -/
theorem longestAbbreviation?_append_congr (h : C.maxAliasLength ≤ a.length) (x y : List Char) :
    C.longestAbbreviation? (a ++ y) = C.longestAbbreviation? (a ++ x) := by
  refine longestAbbreviation?_congr fun w i hi => ?_
  have hlen : w.length ≤ a.length := Nat.le_trans hi.length_le h
  rw [List.isPrefix_append_of_length hlen, List.isPrefix_append_of_length hlen]

/-- How many characters, from where an operator begins, decide it. -/
def lookahead (C : Catalog) : Nat := max C.maxAliasLength 1

/-- Runs that agree on so many characters begin with the same piece, which ends among these. -/
theorem exists_first_agree (h : C.lookahead ≤ a.length) (x y : List Char) :
    ∃ p rest, a = p.source ++ rest ∧ p.source ≠ [] ∧
      C.pieces (a ++ x) = p :: C.pieces (rest ++ x) ∧
      C.pieces (a ++ y) = p :: C.pieces (rest ++ y) := by
  obtain ⟨hlong, hne⟩ := Nat.max_le.1 h
  have halike := longestAbbreviation?_append_congr hlong x y
  rcases hfound : C.longestAbbreviation? (a ++ x) with _ | ⟨w, i⟩
  · rw [hfound] at halike
    match a with
    | c :: rest =>
      exact ⟨⟨[c], .singleton c⟩, rest, rfl, List.cons_ne_nil c [], pieces_of_none hfound,
        pieces_of_none halike⟩
  · obtain ⟨hlead, hnil, hi⟩ := longestAbbreviation?_spelling hfound
    have hw : w.length ≤ a.length := Nat.le_trans (Names.length_le hi) hlong
    obtain ⟨rest, rfl⟩ : w <+: a := (List.isPrefix_append_of_length hw).1 hlead
    rw [hfound] at halike
    rw [List.append_assoc] at hfound halike
    rw [List.append_assoc, List.append_assoc]
    exact ⟨⟨w, i.glyph⟩, rest, rfl, hnil, pieces_of_some hfound, pieces_of_some halike⟩

/-- **Runs that agree on the characters `a` are cut into the same pieces**, until the cutting looks
behind the end of these. -/
theorem exists_pieces_agree (C : Catalog) (x y a : List Char) :
    ∃ qs rs rs', C.pieces (a ++ x) = qs ++ rs ∧ C.pieces (a ++ y) = qs ++ rs' ∧
      a.length < (Piece.text qs).length + C.lookahead := by
  rcases Nat.lt_or_ge a.length C.lookahead with hlt | hge
  · exact ⟨[], C.pieces (a ++ x), C.pieces (a ++ y), rfl, rfl, Nat.lt_add_left _ hlt⟩
  · -- The recursion is on the common characters, from which each step takes one piece.
    obtain ⟨p, rest, ha, hp, hx, hy⟩ := exists_first_agree hge x y
    have hlen : a.length = p.source.length + rest.length := ha ▸ List.length_append
    have hpos := List.length_pos_iff.2 hp
    obtain ⟨qs, rs, rs', hqs, hqs', hlt⟩ := exists_pieces_agree C x y rest
    refine ⟨p :: qs, rs, rs', by rw [hx, hqs]; rfl, by rw [hy, hqs']; rfl, ?_⟩
    rw [Piece.length_text_cons]
    omega
termination_by a.length

/-- Whether the operator `t` is decided by what stands before the offset `n`. -/
def DecidedBefore (C : Catalog) (n : Nat) (t : Token) : Prop :=
  t.span.start.offset + C.lookahead ≤ n

instance (C : Catalog) (n : Nat) : DecidablePred (C.DecidedBefore n) := fun _ =>
  inferInstanceAs (Decidable (_ ≤ _))

/-- What stands behind the pieces `qs` does not matter to the operators that are decided before, if
no operator behind them is. -/
theorem filter_row_append {n : Nat} (rs : List Piece)
    (hn : n < start.offset + (Piece.text qs).length + C.lookahead) :
    (Piece.row start (qs ++ rs)).filter (C.DecidedBefore n) =
      (Piece.row start qs).filter (C.DecidedBefore n) := by
  have hlate : (Piece.row (start.along (Piece.text qs).length) rs).filter (C.DecidedBefore n) =
      [] := by
    refine List.filter_eq_nil_iff.2 fun t ht hdecided => ?_
    obtain ⟨os, p, _, -, rfl⟩ := Piece.mem_row_iff.1 ht
    have hle : start.offset + (Piece.text qs).length + (Piece.text os).length + C.lookahead ≤ n :=
      of_decide_eq_true hdecided
    omega
  rw [Piece.row_append, List.filter_append, hlate, List.append_nil]

/-- **The operators that the common characters of two runs decide are the same.** -/
theorem filter_row_pieces_agree (C : Catalog) (start : Position) (a x y : List Char) :
    (Piece.row start (C.pieces (a ++ y))).filter (C.DecidedBefore (start.offset + a.length)) =
      (Piece.row start (C.pieces (a ++ x))).filter
        (C.DecidedBefore (start.offset + a.length)) := by
  obtain ⟨qs, rs, rs', hx, hy, hlt⟩ := C.exists_pieces_agree x y a
  rw [hx, hy, filter_row_append rs (by omega), filter_row_append rs' (by omega)]

end Catalog

/-- **A run is cut with bounded lookahead**: where two runs agree on their first `n` characters,
they have the same operators among those that begin as much before the end of these as the longest
alias has bytes, or one character if it has none.  So replacing a part of a run changes no operator
that begins so far before it. -/
theorem decompose_lookahead (C : Catalog) (start : Position) :
    (∀ n run run', n ≤ run.length → n ≤ run'.length → run'.take n = run.take n →
      start.HasRoom run.length → start.HasRoom run'.length →
      ∃ ts ts', C.decompose run start = .ok ts ∧ C.decompose run' start = .ok ts' ∧
        ts'.filter (C.DecidedBefore (start.offset + n)) =
          ts.filter (C.DecidedBefore (start.offset + n))) ∧
    ∀ before old new after, start.HasRoom (before ++ old ++ after).length →
      start.HasRoom (before ++ new ++ after).length →
      ∃ ts ts', C.decompose (before ++ old ++ after) start = .ok ts ∧
        C.decompose (before ++ new ++ after) start = .ok ts' ∧
        ∀ t, C.DecidedBefore (start.offset + before.length) t → (t ∈ ts' ↔ t ∈ ts) := by
  refine ⟨fun n run run' hn hn' hagree hroom hroom' => ?_, fun before old new after hold hnew => ?_⟩
  · refine ⟨_, _, Catalog.decompose_of_hasRoom hroom, Catalog.decompose_of_hasRoom hroom', ?_⟩
    have hlen : (run.take n).length = n := List.length_take_of_le hn
    have hfilter := C.filter_row_pieces_agree start (run.take n) (run.drop n) (run'.drop n)
    rwa [hlen, List.take_append_drop, ← hagree, List.take_append_drop] at hfilter
  · refine ⟨_, _, Catalog.decompose_of_hasRoom hold, Catalog.decompose_of_hasRoom hnew,
      fun t ht => ?_⟩
    have hfilter := C.filter_row_pieces_agree start before (old ++ after) (new ++ after)
    rw [← List.append_assoc, ← List.append_assoc] at hfilter
    have hmem : ∀ ts : List Token,
        t ∈ ts.filter (C.DecidedBefore (start.offset + before.length)) ↔ t ∈ ts := fun ts =>
      List.mem_filter.trans (and_iff_left (decide_eq_true ht))
    calc t ∈ Piece.row start (C.pieces (before ++ new ++ after))
        ↔ t ∈ (Piece.row start (C.pieces (before ++ new ++ after))).filter
            (C.DecidedBefore (start.offset + before.length)) := (hmem _).symm
      _ ↔ t ∈ (Piece.row start (C.pieces (before ++ old ++ after))).filter
            (C.DecidedBefore (start.offset + before.length)) := by rw [hfilter]
      _ ↔ t ∈ Piece.row start (C.pieces (before ++ old ++ after)) := hmem _

/-- Runs that agree on five characters, by chance or because one is edited into the other: their
first operator is out of reach, as the longest alias has three bytes. -/
theorem decompose_lookahead_gte :
    (∃ ts ts',
      Catalog.nested.decompose "gtegtx".toList ⟨7, 2, 3⟩ = .ok ts ∧
      Catalog.nested.decompose "gtegte".toList ⟨7, 2, 3⟩ = .ok ts' ∧
      ts'.filter (Catalog.nested.DecidedBefore (7 + 5)) =
        ts.filter (Catalog.nested.DecidedBefore (7 + 5))) ∧
    ∃ ts ts',
      Catalog.nested.decompose ("gtegt".toList ++ "x".toList ++ ")".toList) ⟨7, 2, 3⟩ = .ok ts ∧
      Catalog.nested.decompose ("gtegt".toList ++ "egt".toList ++ ")".toList) ⟨7, 2, 3⟩ = .ok ts' ∧
      ((⟨.operator, ">=", ⟨⟨7, 2, 3⟩, ⟨10, 2, 6⟩⟩⟩ : Token) ∈ ts' ↔
        (⟨.operator, ">=", ⟨⟨7, 2, 3⟩, ⟨10, 2, 6⟩⟩⟩ : Token) ∈ ts) := by
  obtain ⟨hagree, hedit⟩ := decompose_lookahead .nested ⟨7, 2, 3⟩
  obtain ⟨ts, ts', hts, hts', hsame⟩ := hedit "gtegt".toList "x".toList "egt".toList ")".toList
    (by decide +kernel) (by decide +kernel)
  exact ⟨hagree 5 "gtegtx".toList "gtegte".toList (by decide +kernel) (by decide +kernel)
      (by decide +kernel) (by decide +kernel) (by decide +kernel),
    ts, ts', hts, hts', hsame _ (by decide +kernel)⟩

end Mnemonic
