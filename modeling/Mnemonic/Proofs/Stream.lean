import Mnemonic.Lexer
import Mnemonic.Proofs.Leading
import Mnemonic.Proofs.Lexeme

/-!
# Proofs/Stream — the items of a lexer are those of the segments

The items that a lexer hands out are a function of the text: the tokens of the leading segments,
and then, unless the text ends, the error of the literal that is not finished (`drain_of_leads`,
`drain_unreadable`).  Reading a whole source gathers them (`tokenize_eq_gather`), so it succeeds
exactly on the texts that factor (`tokenize_eq_row_iff`).
-/

namespace Mnemonic

open Position (reached)
open Segment (Leads Factors Unreadable)

namespace Lexer

/-! ## One item -/

theorem next_of_failed {l : Lexer} (h : l.failed = true) : l.next = (none, l) := by
  rw [next, if_pos h]

theorem next_of_pending {l : Lexer} {t : Token} {ts : List Token} (hf : l.failed = false)
    (hp : l.pending = t :: ts) : l.next = (some (.ok t), { l with pending := ts }) := by
  rw [next, if_neg (hf ▸ Bool.false_ne_true)]
  split
  · rename_i hp'
    obtain ⟨rfl, rfl⟩ := List.cons.inj (hp.symm.trans hp')
    rfl
  · rename_i hp'
    exact absurd (hp.symm.trans hp') (List.cons_ne_nil t ts)

theorem next_of_rest_nil {l : Lexer} (hf : l.failed = false) (hp : l.pending = [])
    (hr : l.rest = []) : l.next = (none, l) := by
  rw [next, if_neg (hf ▸ Bool.false_ne_true)]
  split
  · rename_i hp'
    exact absurd (hp'.symm.trans hp) (List.cons_ne_nil _ _)
  · split
    · rfl
    · rename_i hr'
      exact absurd (hr'.symm.trans hr) (List.cons_ne_nil _ _)

/-- With nothing to hand out, a segment that can be read is skipped on the way to the next item, and
one that cannot is an error. -/
theorem next_of_rest_cons {l : Lexer} {c : Char} {cs : List Char} (hf : l.failed = false)
    (hp : l.pending = []) (hr : l.rest = c :: cs) :
    l.next = match l.readSegment c cs with
      | .error e => (some (.error e), l.fail e)
      | .ok l' => l'.next := by
  rw [next, if_neg (hf ▸ Bool.false_ne_true)]
  split
  · rename_i hp'
    exact absurd (hp'.symm.trans hp) (List.cons_ne_nil _ _)
  · split
    · rename_i hr'
      exact absurd (hr.symm.trans hr') (List.cons_ne_nil c cs)
    · rename_i hr'
      obtain ⟨rfl, rfl⟩ := List.cons.inj (hr.symm.trans hr')
      split <;> rename_i hread <;> rw [hread]

/-! ## All items -/

theorem drain_of_next_none {l l' : Lexer} (h : l.next = (none, l')) : l.drain = ([], l') := by
  rw [drain]
  split
  · rename_i h'
    rw [(Prod.mk.inj (h.symm.trans h')).2]
  · rename_i h'
    exact absurd (Prod.mk.inj (h'.symm.trans h)).1 (Option.some_ne_none _)

theorem drain_of_next_some {l l' : Lexer} {i : Item} (h : l.next = (some i, l')) :
    l.drain = (i :: l'.drain.1, l'.drain.2) := by
  rw [drain]
  split
  · rename_i h'
    exact absurd (Prod.mk.inj (h.symm.trans h')).1 (Option.some_ne_none i)
  · rename_i h'
    obtain ⟨hi, rfl⟩ := Prod.mk.inj (h.symm.trans h')
    rw [Option.some.inj hi]

/-- Only the next item decides what is still to come. -/
theorem drain_congr {l l' : Lexer} (h : l.next = l'.next) : l.drain = l'.drain := by
  rcases hnext : l'.next with ⟨_ | i, l''⟩
  · rw [drain_of_next_none hnext, drain_of_next_none (h.trans hnext)]
  · rw [drain_of_next_some hnext, drain_of_next_some (h.trans hnext)]

/-- Pending tokens are handed out before anything is read. -/
theorem drain_pending {l : Lexer} (ts : List Token) (hf : l.failed = false) :
    ({ l with pending := ts }).drain.1 = ts.map .ok ++ ({ l with pending := [] }).drain.1 := by
  induction ts with
  | nil => rfl
  | cons t ts ih =>
    have hnext := next_of_pending (l := { l with pending := t :: ts }) hf rfl
    rw [drain_of_next_some hnext, ih]
    rfl

/-- The tokens among some items, or the first error. -/
def gather : List Item → Except LexError (List Token)
  | [] => .ok []
  | .error e :: _ => .error e
  | .ok t :: is => (gather is).map (t :: ·)

/-- Collecting gathers all the items. -/
theorem collect_eq_gather (l : Lexer) : l.collect.1 = gather l.drain.1 := by
  fun_induction collect l with
  | case1 l l' h => rw [drain_of_next_none h]; rfl
  | case2 l l' e h => rw [drain_of_next_some h]; rfl
  | case3 l l' t h ts l'' hc ih => rw [drain_of_next_some h, gather, ← ih, hc]

/-- So does asking for the tokens one after the other. -/
theorem readAll_eq_gather (l : Lexer) : l.readAll = gather l.drain.1 := by
  fun_induction readAll l with
  | case1 l l' h => rw [drain_of_next_none (next_of_nextToken h)]; rfl
  | case2 l t l' h ih => rw [drain_of_next_some (next_of_nextToken h), gather, ← ih]
  | case3 l e l' h => rw [drain_of_next_some (next_of_nextToken h)]; rfl

/-- **Asking for tokens and collecting come to the same.** -/
theorem readAll_eq_collect (l : Lexer) : l.readAll = l.collect.1 := by
  rw [readAll_eq_gather, collect_eq_gather]

theorem gather_map_ok_append (ts : List Token) (is : List Item) :
    gather (ts.map .ok ++ is) = (gather is).map (ts ++ ·) := by
  induction ts with
  | nil =>
    change gather is = (gather is).map fun us => us
    rcases gather is with e | us <;> rfl
  | cons t ts ih =>
    rw [List.map_cons, List.cons_append, gather, ih]
    rcases gather is with e | us <;> rfl

/-- Items without an error are tokens. -/
theorem gather_eq_ok_iff {is : List Item} {ts : List Token} :
    gather is = .ok ts ↔ is = ts.map .ok := by
  constructor
  · intro h
    induction is generalizing ts with
    | nil =>
      rw [← Except.ok.inj h]
      rfl
    | cons i is ih =>
      match i, h with
      | .error _, h => exact nomatch h
      | .ok t, h =>
        rw [gather] at h
        rcases hgather : gather is with e | us
        · rw [hgather] at h
          exact nomatch h
        · rw [hgather] at h
          rw [← Except.ok.inj h, ih hgather]
          rfl
  · rintro rfl
    have h := gather_map_ok_append ts []
    rw [List.append_nil] at h
    exact h.trans (congrArg Except.ok (List.append_nil ts))

/-! ## Between two parts of a source -/

variable {C : Catalog} {policy : StringPolicy} {before cs rest left : List Char} {s : Segment}
  {ss : List Segment} {u : Unterminated}

/-- A lexer with nothing to hand out, between the text `before` that it has read and the text `rest`
that it has not. -/
def between (C : Catalog) (policy : StringPolicy) (before rest : List Char) : Lexer :=
  ⟨C, policy, rest, reached before, [], false⟩

/-- A literal that is not finished cannot be read. -/
theorem readSegment_of_unreadable {c : Char} (h : Unreadable policy (c :: cs) u) :
    (between C policy before (c :: cs)).readSegment c cs =
      .error (.unterminated (reached before) u) := by
  rw [readSegment]
  change ((Segment.read policy c cs).mapError (LexError.unterminated (reached before)) >>= _) = _
  rw [Segment.read_eq_error_iff.2 h]
  rfl

/-- A segment that fits is read, and its lexemes become pending, if a word can count it. -/
theorem readSegment_of_fits {c : Char} (hbefore : before.length ≤ wordMax)
    (hs : s.Fits policy rest) (htext : s.text ++ rest = c :: cs) :
    (between C policy before (c :: cs)).readSegment c cs =
      if before.length + s.text.length ≤ wordMax then
        .ok { between C policy (before ++ s.text) rest with
          pending := Lexeme.row before (s.lexemes C) }
      else .error (.overflow .add) := by
  rw [readSegment]
  change ((Segment.read policy c cs).mapError (LexError.unterminated (reached before)) >>= _) = _
  rw [Segment.read_eq_ok_iff.2 ⟨htext, hs⟩]
  change (((reached before).walk s.text).mapError LexError.overflow >>= _) = _
  split
  · rename_i hlen
    rw [Position.walk_reached hlen]
    change ((s.tokens C (.over before s.text)).mapError LexError.overflow >>= _) = _
    rw [Segment.tokens_over C hs hlen]
    rfl
  · rename_i hlen
    rw [Position.walk_reached_of_lt hbefore (Nat.lt_of_not_le hlen)]
    rfl

/-- At the end of the source nothing comes any more. -/
theorem drain_nil : (between C policy before []).drain.1 = [] := by
  rw [drain_of_next_none (next_of_rest_nil rfl rfl rfl)]

/-- A segment that cannot be read is an error, and the last item. -/
theorem drain_of_readSegment_error {c : Char} {e : LexError}
    (h : (between C policy before (c :: cs)).readSegment c cs = .error e) :
    (between C policy before (c :: cs)).drain.1 = [.error e] := by
  have hnext := next_of_rest_cons (l := between C policy before (c :: cs)) rfl rfl rfl
  rw [h] at hnext
  rw [drain_of_next_some hnext, drain_of_next_none (next_of_failed (failed_fail _ _))]

/-- **A segment is read as its lexemes.** -/
theorem drain_segment (hs : s.Fits policy rest)
    (hlen : before.length + s.text.length ≤ wordMax) :
    (between C policy before (s.text ++ rest)).drain.1 =
      (Lexeme.row before (s.lexemes C)).map .ok ++
        (between C policy (before ++ s.text) rest).drain.1 := by
  obtain ⟨c, cs, hcs⟩ := List.exists_cons_of_ne_nil (l := s.text ++ rest)
    (fun h => hs.text_ne_nil (List.append_eq_nil_iff.1 h).1)
  rw [hcs]
  have hread := readSegment_of_fits (C := C) (Nat.le_of_add_right_le hlen) hs hcs
  rw [if_pos hlen] at hread
  have hnext := next_of_rest_cons (l := between C policy before (c :: cs)) rfl rfl rfl
  rw [hread] at hnext
  rw [drain_congr hnext]
  exact drain_pending (l := between C policy (before ++ s.text) rest) _ rfl

/-- **The items of a text are the tokens of its first segments and what comes after these.** -/
theorem drain_of_leads (h : Leads policy cs ss left)
    (hlen : before.length + cs.length ≤ wordMax) :
    (between C policy before cs).drain.1 =
      (Segment.row C before ss).map .ok ++
        (between C policy (before ++ ss.flatMap Segment.text) left).drain.1 := by
  induction h generalizing before with
  | nil =>
    rw [List.flatMap_nil, List.append_nil]
    rfl
  | @cons s rest left ss hs _ ih =>
    rw [List.length_append] at hlen
    rw [drain_segment hs (by omega), ih (by rw [List.length_append]; omega), Segment.row,
      List.map_append, List.append_assoc, List.flatMap_cons, List.append_assoc]

/-- A literal that is not finished is an error at its place. -/
theorem drain_unreadable (h : Unreadable policy cs u) :
    (between C policy before cs).drain.1 = [.error (.unterminated (reached before) u)] := by
  obtain ⟨c, cs, rfl⟩ := List.exists_cons_of_ne_nil h.ne_nil
  exact drain_of_readSegment_error (readSegment_of_unreadable h)

/-- A text that a word cannot count ends in an error. -/
theorem exists_drain_of_lt (hbefore : before.length ≤ wordMax)
    (hlen : wordMax < before.length + cs.length) :
    ∃ (ts : List Token) (e : LexError),
      (between C policy before cs).drain.1 = ts.map .ok ++ [.error e] := by
  induction hn : cs.length using Nat.strongRecOn generalizing before cs with
  | ind n ih =>
    obtain ⟨c, tail, rfl⟩ := List.exists_cons_of_ne_nil (l := cs)
      (by rintro rfl; exact absurd hlen (Nat.not_lt.2 hbefore))
    rcases hread : Segment.read policy c tail with u | ⟨s, rest⟩
    · exact ⟨[], _, drain_unreadable (Segment.read_eq_error_iff.1 hread)⟩
    obtain ⟨htext, hs⟩ := Segment.read_eq_ok_iff.1 hread
    have hpos := List.length_pos_iff.2 hs.text_ne_nil
    rw [← htext, List.length_append] at hlen hn
    rcases Nat.lt_or_ge wordMax (before.length + s.text.length) with hover | hfits
    · have hsegment := readSegment_of_fits (C := C) hbefore hs htext
      rw [if_neg (Nat.not_le.2 hover)] at hsegment
      exact ⟨[], _, drain_of_readSegment_error hsegment⟩
    · obtain ⟨ts, e, hdrain⟩ : ∃ (ts : List Token) (e : LexError),
          (between C policy (before ++ s.text) rest).drain.1 = ts.map .ok ++ [.error e] :=
        ih rest.length (by omega) (by rw [List.length_append]; exact hfits)
          (by rw [List.length_append]; omega) rfl
      refine ⟨Lexeme.row before (s.lexemes C) ++ ts, e, ?_⟩
      rw [← htext, drain_segment hs hfits, hdrain, List.map_append, List.append_assoc]

end Lexer

/-! ## Whole sources -/

variable {C : Catalog} {policy : StringPolicy} {source : String}

/-- The items of a source with the segments `ss` up to `left`. -/
theorem Lexer.drain_ofSource_of_leads {ss : List Segment} {left : List Char}
    (hlen : source.length ≤ wordMax) (h : Leads policy source.toList ss left) :
    (ofSource C policy source).drain.1 =
      (Segment.row C [] ss).map .ok ++
        (between C policy (ss.flatMap Segment.text) left).drain.1 := by
  rw [← String.length_toList] at hlen
  exact drain_of_leads h (by rwa [List.length_nil, Nat.zero_add])

theorem tokenize_eq_gather :
    tokenize C policy source = Lexer.gather (Lexer.between C policy [] source.toList).drain.1 :=
  Lexer.readAll_eq_gather _

/-- A source that a word cannot count is not read. -/
theorem tokenize_ne_ok_of_lt {ts : List Token} (h : wordMax < source.length) :
    tokenize C policy source ≠ .ok ts := by
  rw [← String.length_toList] at h
  obtain ⟨us, e, hdrain⟩ : ∃ (us : List Token) (e : LexError),
      (Lexer.between C policy [] source.toList).drain.1 = us.map .ok ++ [.error e] :=
    Lexer.exists_drain_of_lt (Nat.zero_le _) (by rwa [List.length_nil, Nat.zero_add])
  rw [tokenize_eq_gather, hdrain, Lexer.gather_map_ok_append]
  exact fun h => nomatch h

/-- The result for a source with the segments `ss` up to `left`. -/
theorem tokenize_of_leads {ss : List Segment} {left : List Char}
    (hlen : source.length ≤ wordMax) (h : Leads policy source.toList ss left) :
    tokenize C policy source =
      (Lexer.gather (Lexer.between C policy (ss.flatMap Segment.text) left).drain.1).map
        (Segment.row C [] ss ++ ·) := by
  have hgather := Lexer.readAll_eq_gather (Lexer.ofSource C policy source)
  rw [Lexer.drain_ofSource_of_leads hlen h, Lexer.gather_map_ok_append] at hgather
  exact hgather

theorem tokenize_of_factors {ss : List Segment} (hlen : source.length ≤ wordMax)
    (h : Factors policy source.toList ss) :
    tokenize C policy source = .ok (Segment.row C [] ss) := by
  rw [tokenize_of_leads hlen (Segment.factors_iff_leads.1 h), Lexer.drain_nil]
  exact congrArg Except.ok (List.append_nil _)

theorem tokenize_of_unreadable {ss : List Segment} {left : List Char} {u : Unterminated}
    (hlen : source.length ≤ wordMax) (h : Leads policy source.toList ss left)
    (hu : Unreadable policy left u) :
    tokenize C policy source = .error (.unterminated (reached (ss.flatMap Segment.text)) u) := by
  rw [tokenize_of_leads hlen h, Lexer.drain_unreadable hu]
  rfl

/-- **A source is read exactly when a word can count it and segments make it up**; its tokens are
then those of the segments. -/
theorem tokenize_eq_row_iff {ts : List Token} :
    tokenize C policy source = .ok ts ↔
      source.length ≤ wordMax ∧
        ∃ ss, Factors policy source.toList ss ∧ ts = Segment.row C [] ss := by
  constructor
  · intro h
    rcases Nat.lt_or_ge wordMax source.length with hover | hlen
    · exact absurd h (tokenize_ne_ok_of_lt hover)
    · obtain ⟨ss, left, hleads, rfl | ⟨u, hu⟩⟩ := Segment.exists_leads policy source.toList
      · have hss := Segment.factors_iff_leads.2 hleads
        rw [tokenize_of_factors hlen hss] at h
        exact ⟨hlen, ss, hss, (Except.ok.inj h).symm⟩
      · rw [tokenize_of_unreadable hlen hleads hu] at h
        exact nomatch h
  · rintro ⟨hlen, ss, hss, rfl⟩
    exact tokenize_of_factors hlen hss

/-- **A source fails exactly at a literal that it does not finish**, as long as a word can count
it. -/
theorem tokenize_eq_error_iff {e : LexError} (hlen : source.length ≤ wordMax) :
    tokenize C policy source = .error e ↔
      ∃ ss left u, Leads policy source.toList ss left ∧ Unreadable policy left u ∧
        e = .unterminated (reached (ss.flatMap Segment.text)) u := by
  constructor
  · intro h
    obtain ⟨ss, left, hleads, rfl | ⟨u, hu⟩⟩ := Segment.exists_leads policy source.toList
    · rw [tokenize_of_factors hlen (Segment.factors_iff_leads.2 hleads)] at h
      exact nomatch h
    · rw [tokenize_of_unreadable hlen hleads hu] at h
      exact ⟨ss, left, u, hleads, hu, (Except.error.inj h).symm⟩
  · rintro ⟨ss, left, u, hleads, hu, rfl⟩
    exact tokenize_of_unreadable hlen hleads hu

end Mnemonic
