import Mnemonic.Proofs.Spans
import Mnemonic.Proofs.States

/-!
# Proofs/Invariant — what every state of a lexer keeps

Whatever a lexer has been asked, its place, the rest of its text and its pending tokens fit together
(`Invariant`): all three are read off the segments that have been read (`State.exists_place`,
`State.exists_leads`, `State.exists_pending_eq`).  So every turn of a search stays inside the text
and inside the words, and some turn ends it (`askAll_invariant`).
-/

namespace Mnemonic

open Position (reached)
open Segment (Leads)

/-! ## Tokens in a row -/

/-- Each token of a row begins where the one before it ends. -/
theorem Lexeme.isChain_row (xs : List Lexeme) (before : List Char) :
    (row before xs).IsChain fun t u => t.span.stop = u.span.start := by
  induction xs generalizing before with
  | nil => exact .nil
  | cons x xs ih =>
    refine List.isChain_cons.2 ⟨fun u hu => ?_, ih _⟩
    match xs with
    | y :: xs =>
      obtain rfl := Option.some.inj hu
      rfl

namespace Segment

variable {C : Catalog} {policy : StringPolicy} {cs left : List Char} {ss : List Segment} {t : Token}

/-- The tokens of leading segments have a length, and it is not zero. -/
theorem exists_length_span (h : Leads policy cs ss left) (ht : t ∈ row C [] ss) :
    ∃ n, t.span.length = .ok n ∧ 0 < n := by
  obtain ⟨b, s, d, x, hs, hx, rfl⟩ := mem_row_iff.1 ht
  have hpart := part_ne_nil_of_mem_lexemes (h.text_ne_nil_of_mem hs.mem) hx.mem
  exact ⟨x.part.length, wordSub_eq_ok_iff.2 (Lexeme.stop_token _ x), List.length_pos_iff.2 hpart⟩

/-- **Tokens and comments share out the text of segments.** -/
theorem covers_or_inComment_iff (C : Catalog) (ss : List Segment) (o : Nat) :
    ((∃ t ∈ row C [] ss, t.Covers o) ∨ InComment ss o ↔ o < (ss.flatMap text).length) ∧
      ¬ ((∃ t ∈ row C [] ss, t.Covers o) ∧ InComment ss o) := by
  refine ⟨⟨?_, fun ho => ?_⟩, fun ⟨⟨t, ht, hto⟩, hcomment⟩ =>
    not_inComment_of_covers ht hto hcomment⟩
  · rintro (⟨t, ht, hto⟩ | ⟨before, s, hs, -, hso⟩)
    · have hle := (bounds_of_mem_row ht).2
      rw [List.length_nil, Nat.zero_add] at hle
      exact Nat.lt_of_lt_of_le hto.2 hle
    · exact Nat.lt_of_lt_of_le hso.2 hs.length_le
  · by_cases hcomment : InComment ss o
    · exact .inr hcomment
    · exact .inl ((covers_iff_not_inComment ho).2 hcomment)

end Segment

namespace Lexer

variable {C : Catalog} {policy : StringPolicy} {cs before left : List Char} {used : List Item}
  {l : Lexer} {t : Token}

/-! ## The place of a state -/

/-- A lexer that an error stops is at a place of its text too. -/
theorem exists_fail_between (C : Catalog) (policy : StringPolicy) (hlen : cs.length ≤ wordMax)
    (htext : before ++ left = cs) (e : LexError) :
    ∃ read rest, read ++ rest = cs ∧ (between C policy before left).fail e =
      { between C policy read rest with failed := true } := by
  match e with
  | .unterminatedString line column =>
    -- the search for the closing quote has gone to the end
    have hwalk : (reached before).walk left = .ok (reached cs) :=
      htext ▸ Position.walk_reached (by rwa [← List.length_append, htext])
    exact ⟨cs, [], List.append_nil cs, fail_unterminatedString hwalk⟩
  | .unterminatedChar _ _ | .overflow _ => exact ⟨before, left, htext, rfl⟩

/-- **A state is at a place of its text**, and has the text behind it unread. -/
theorem State.exists_place (hlen : cs.length ≤ wordMax) (h : State C policy cs used l) :
    ∃ read, read ++ l.rest = cs ∧ l.position = reached read := by
  match h with
  | .between hleads => exact ⟨_, hleads.text_eq, rfl⟩
  | .within hleads _ => exact ⟨_, hleads.text_eq, rfl⟩
  | .failed hleads _ =>
    obtain ⟨read, rest, htext, hfail⟩ := exists_fail_between C policy hlen hleads.text_eq _
    rw [hfail]
    exact ⟨read, htext, rfl⟩

theorem State.offset_le (hlen : cs.length ≤ wordMax) (h : State C policy cs used l) :
    l.position.offset ≤ cs.length := by
  obtain ⟨read, htext, hposition⟩ := h.exists_place hlen
  rw [hposition, ← htext, List.length_append]
  exact Nat.le_add_right _ _

/-- The line and the column of a state are those that the characters before its place show. -/
theorem State.position_eq (hlen : cs.length ≤ wordMax) (h : State C policy cs used l) :
    l.position = reached (cs.take l.position.offset) := by
  obtain ⟨read, htext, hposition⟩ := h.exists_place hlen
  have htake : cs.take read.length = read := htext ▸ List.take_left
  rw [hposition]
  exact congrArg reached htake.symm

theorem State.rest_eq (hlen : cs.length ≤ wordMax) (h : State C policy cs used l) :
    l.rest = cs.drop l.position.offset := by
  obtain ⟨read, htext, hposition⟩ := h.exists_place hlen
  have hdrop : cs.drop read.length = l.rest := htext ▸ List.drop_left
  rw [hposition]
  exact hdrop.symm

/-- Words can count what a state has not read. -/
theorem State.walk_eq (hlen : cs.length ≤ wordMax) (h : State C policy cs used l) :
    l.position.walk l.rest = .ok (reached cs) := by
  obtain ⟨read, htext, hposition⟩ := h.exists_place hlen
  rw [hposition, Position.walk_reached (by rwa [← List.length_append, htext]), htext]

/-! ## The tokens of a state -/

theorem filterMap_toOption_map_ok (ts : List Token) :
    (ts.map (.ok : Token → Item)).filterMap Except.toOption = ts := by
  rw [List.filterMap_map]
  exact List.filterMap_some

/-- **The tokens used up and the pending ones are those of leading segments**, and a lexer that has
not failed is where these end. -/
theorem State.exists_leads (h : State C policy cs used l) :
    ∃ ss left, Leads policy cs ss left ∧
      used.filterMap Except.toOption ++ l.pending = Segment.row C [] ss ∧
      (l.failed = false → l.rest = left ∧ l.position = reached (ss.flatMap Segment.text)) := by
  match h with
  | @State.between _ _ _ ss left hleads =>
    refine ⟨ss, left, hleads, ?_, fun _ => ⟨rfl, rfl⟩⟩
    rw [filterMap_toOption_map_ok]
    exact List.append_nil _
  | @State.within _ _ _ ss s left ws xs x hleads hs =>
    refine ⟨ss ++ [s], left, hleads, ?_, fun _ => ⟨rfl, rfl⟩⟩
    rw [filterMap_toOption_map_ok, Segment.row_append, Segment.row, hs, Lexeme.row_append,
      List.append_assoc, Segment.row, List.append_nil]
    rfl
  | @State.failed _ _ _ ss left u hleads hu =>
    refine ⟨ss, left, hleads, ?_, fun hf => Bool.noConfusion ((failed_fail _ _).symm.trans hf)⟩
    rw [List.filterMap_append, filterMap_toOption_map_ok, pending_fail]
    exact (List.append_nil _).trans (List.append_nil _)

/-- An error leaves nothing pending. -/
theorem State.pending_eq_nil (h : State C policy cs used l) (hf : l.failed = true) :
    l.pending = [] := by
  match h with
  | .between _ | .within _ _ => exact Bool.noConfusion hf
  | .failed _ _ => exact pending_fail _ _

/-- **The pending tokens are those of lexemes that end at the place of the lexer.** -/
theorem State.exists_pending_eq (h : State C policy cs used l) :
    ∃ before xs, l.pending = Lexeme.row before xs ∧
      (xs ≠ [] → l.position = reached (before ++ xs.flatMap Lexeme.part)) := by
  match h with
  | .between _ => exact ⟨[], [], rfl, fun hne => absurd rfl hne⟩
  | @State.within _ _ _ ss s left ws xs x hleads hs =>
    refine ⟨_, x :: xs, rfl, fun _ => congrArg reached ?_⟩
    have hx : x ∈ s.lexemes C := by
      rw [hs]
      exact List.mem_append_right ws List.mem_cons_self
    have hparts := Segment.flatMap_part_lexemes C (Segment.isComment_of_mem_lexemes hx)
    rw [hs, List.flatMap_append] at hparts
    rw [List.append_assoc, hparts, List.flatMap_append, List.flatMap_singleton]
  | .failed _ _ => exact ⟨[], [], pending_fail _ _, fun hne => absurd rfl hne⟩

theorem State.isChain_pending (h : State C policy cs used l) :
    l.pending.IsChain fun t u => t.span.stop = u.span.start := by
  obtain ⟨before, xs, hpending, -⟩ := h.exists_pending_eq
  rw [hpending]
  exact Lexeme.isChain_row xs before

/-- The last pending token ends at the place of the lexer. -/
theorem State.stop_eq (h : State C policy cs used l) (ht : t ∈ l.pending.getLast?) :
    t.span.stop = l.position := by
  obtain ⟨before, xs, hpending, hstop⟩ := h.exists_pending_eq
  rw [hpending] at ht
  have hne : xs ≠ [] := by
    rintro rfl
    exact nomatch ht
  obtain ⟨u, hu, hend, -⟩ := Lexeme.exists_getLast?_row hne before
  rw [Option.mem_unique ht hu, hend, hstop hne]

/-! ## The invariant -/

/-- How a lexer over the text `cs` stands when the tokens `delivered` have been used up. -/
structure Invariant (policy : StringPolicy) (cs : List Char) (delivered : List Token) (l : Lexer) :
    Prop where
  offset_le : l.position.offset ≤ cs.length
  /-- The line and the column are those that the characters before the place show. -/
  position_eq : l.position = reached (cs.take l.position.offset)
  rest_eq : l.rest = cs.drop l.position.offset
  operator : ∀ t ∈ l.pending, t.kind = .operator
  joined : l.pending.IsChain fun t u => t.span.stop = u.span.start
  stop_eq : ∀ t ∈ l.pending.getLast?, t.span.stop = l.position
  /-- Tokens have a length, and it is not zero. -/
  length_pos : ∀ t ∈ delivered ++ l.pending, ∃ n, t.span.length = .ok n ∧ 0 < n
  ordered : (delivered ++ l.pending).Pairwise fun t u => t.span.stop.offset ≤ u.span.start.offset
  /-- What has been read is in a token or in a comment, and in one only. -/
  covers : l.failed = false → ∃ ss, Leads policy cs ss l.rest ∧ ∀ o,
    ((∃ t ∈ delivered ++ l.pending, t.Covers o) ∨ Segment.InComment ss o ↔
      o < l.position.offset) ∧
    ¬ ((∃ t ∈ delivered ++ l.pending, t.Covers o) ∧ Segment.InComment ss o)
  /-- After an error nothing is pending, and nothing moves. -/
  stays : l.failed = true → l.pending = [] ∧ ∀ calls, (l.askAll calls).2 = l
  /-- Every turn of a search is safe. -/
  safe : ∀ l', Turns l l' → l'.SafeTurn cs
  /-- Words can count all that a search can still read. -/
  walk_eq : ∀ l', Turns l l' → l'.position.walk l'.rest = .ok (reached cs)
  /-- Some turn of a search ends it. -/
  ends : ∃ l', Turns l l' ∧ l'.turn = .inl l.next

/-- **A state satisfies the invariant**, if operators are pending. -/
theorem State.invariant (hlen : cs.length ≤ wordMax) (h : State C policy cs used l)
    (hkind : ∀ t ∈ l.pending, t.kind = .operator) :
    Invariant policy cs (used.filterMap Except.toOption) l := by
  obtain ⟨ss, left, hleads, hrow, hplace⟩ := h.exists_leads
  have hpos : ∀ t ∈ Segment.row C [] ss, ∃ n, t.span.length = .ok n ∧ 0 < n := fun t ht =>
    Segment.exists_length_span hleads ht
  have hordered := Segment.pairwise_row (C := C) ss []
  have hcovers := Segment.covers_or_inComment_iff C ss
  rw [← hrow] at hpos hordered hcovers
  refine
    { offset_le := h.offset_le hlen
      position_eq := h.position_eq hlen
      rest_eq := h.rest_eq hlen
      operator := hkind
      joined := h.isChain_pending
      stop_eq := fun t ht => h.stop_eq ht
      length_pos := hpos
      ordered := hordered
      covers := fun hf => ?_
      stays := fun hf =>
        ⟨h.pending_eq_nil hf, fun calls => (l.askAll_passes calls).eq_of_failed hf⟩
      safe := fun l' hturns => (h.of_turns hlen hturns).safeTurn hlen
      walk_eq := fun l' hturns => (h.of_turns hlen hturns).walk_eq hlen
      ends := l.exists_turns }
  obtain ⟨rfl, hreached⟩ := hplace hf
  rw [hreached]
  exact ⟨ss, hleads, hcovers⟩

/-- The tokens that calls use up: those they hand out, and those they only count or come by on the
way to an error. -/
def delivered (l : Lexer) (calls : List Call) : List Token :=
  (Call.parts l.drain.1 calls).flatten.filterMap Except.toOption

theorem mem_delivered_of_mem_handedOut {calls : List Call}
    (h : t ∈ (l.askAll calls).1.flatMap Answer.handedOut) : t ∈ l.delivered calls :=
  List.mem_filterMap.2 ⟨.ok t, mem_parts_of_mem_handedOut h, rfl⟩

end Lexer

/-- **Whatever it is asked, a lexer keeps the invariant**: its place is one of the text, with the
line and the column of the characters before it; what is pending are operators that join up to
there; the tokens used up, the pending ones and the comments share out the text before it as long as
it has not failed, and from then on it stays where it is.  No turn leaves the text or the words, and
every search ends. -/
theorem askAll_invariant (C : Catalog) (policy : StringPolicy) {source : String}
    (hlen : source.length ≤ wordMax) (calls : List Lexer.Call) :
    (∀ t ∈ ((Lexer.ofSource C policy source).askAll calls).1.flatMap Lexer.Answer.handedOut,
      t ∈ (Lexer.ofSource C policy source).delivered calls) ∧
    Lexer.Invariant policy source.toList ((Lexer.ofSource C policy source).delivered calls)
      ((Lexer.ofSource C policy source).askAll calls).2 := by
  rw [← String.length_toList] at hlen
  refine ⟨fun t ht => Lexer.mem_delivered_of_mem_handedOut ht, ?_⟩
  have hstart : Lexer.State C policy source.toList [] (Lexer.ofSource C policy source) :=
    .between .nil
  have hpasses := (Lexer.ofSource C policy source).askAll_passes calls
  obtain ⟨hstate, hkind⟩ := hstart.of_passes hlen (fun t ht => nomatch ht) hpasses
  exact hstate.invariant hlen hkind

/-- Half of a word is pending behind a comment; the string behind it is not closed, and the lexer
stops at the end of the source. -/
theorem askAll_invariant_half_word :
    (∃ l ts, Lexer.Invariant .reject "#\nrevrev\"x".toList ts l ∧
      ts = [⟨.operator, "⇌", ⟨⟨2, 1, 0⟩, ⟨5, 1, 3⟩⟩⟩] ∧
      l.pending = [⟨.operator, "⇌", ⟨⟨5, 1, 3⟩, ⟨8, 1, 6⟩⟩⟩] ∧ l.position = ⟨8, 1, 6⟩) ∧
    ∃ l ts, Lexer.Invariant .reject "#\nrevrev\"x".toList ts l ∧
      l.failed = true ∧ l.position = ⟨10, 1, 8⟩ := by
  have hlen : "#\nrevrev\"x".length ≤ wordMax := by decide +kernel
  refine ⟨⟨_, _, (askAll_invariant .standard .reject hlen [.nextToken]).2, ?_, ?_, ?_⟩,
    ⟨_, _, (askAll_invariant .standard .reject hlen [.drain]).2, ?_, ?_⟩⟩
  all_goals decide +kernel

end Mnemonic
