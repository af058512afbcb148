import Mnemonic.Proofs.Coverage
import Mnemonic.Proofs.Session

/-!
# Proofs/Spans — every span is where its token stands

The ends of a span are counted while the source is read, character by character or, in a word, piece
by piece.  Whatever the count has gone through, it is at the place that the text before it shows
(`span_eq_reached`).
-/

namespace Mnemonic

open Position (reached)
open Lexer (Call Answer)

/-! ## Tokens of an answer -/

namespace Lexer

/-- The tokens that an answer hands out. -/
def Answer.handedOut : Answer → List Token
  | .token (.ok t) => t.toList
  | .token (.error _) => []
  | .item i => i.toList.filterMap Except.toOption
  | .items is => is.filterMap Except.toOption
  | .number _ => []
  | .tokens (.ok ts) => ts
  | .tokens (.error _) => []

variable {l : Lexer} {is : List Item} {t : Token}

theorem mem_of_ok_mem_map {ts : List Token} (h : (.ok t : Item) ∈ ts.map .ok) : t ∈ ts := by
  obtain ⟨u, hu, he⟩ := List.mem_map.1 h
  exact Except.ok.inj he ▸ hu

theorem mem_of_mem_filterMap_toOption (h : t ∈ is.filterMap Except.toOption) : .ok t ∈ is := by
  obtain ⟨i, hi, ht⟩ := List.mem_filterMap.1 h
  match i, ht with
  | .ok _, ht =>
    obtain rfl := Option.some.inj ht
    exact hi

theorem mem_of_gather {ts : List Token} (h : gather is = .ok ts) (ht : t ∈ ts) : .ok t ∈ is := by
  rw [gather_eq_ok_iff.1 h]
  exact List.mem_map_of_mem ht

/-- An answer hands out tokens of the items that it tells of. -/
theorem Call.mem_of_mem_handedOut {c : Call} (h : t ∈ (c.answer is).handedOut) : .ok t ∈ is := by
  match c with
  | .nextToken =>
    rcases hgather : gather is with e | ts
    · rw [answer, hgather] at h
      exact nomatch h
    · rw [answer, hgather] at h
      exact mem_of_gather hgather (List.mem_of_head? (Option.mem_toList.1 h))
  | .next => exact List.mem_of_head? (Option.mem_toList.1 (mem_of_mem_filterMap_toOption h))
  | .take _ | .drain => exact mem_of_mem_filterMap_toOption h
  | .count => exact nomatch h
  | .collect =>
    rcases hgather : gather is with e | ts
    · rw [answer, hgather] at h
      exact nomatch h
    · rw [answer, hgather] at h
      exact mem_of_gather hgather h

/-- Answers hand out tokens among the items that the calls use up. -/
theorem mem_parts_of_mem_handedOut {calls : List Call}
    (h : t ∈ (l.askAll calls).1.flatMap Answer.handedOut) :
    .ok t ∈ (Call.parts l.drain.1 calls).flatten := by
  induction calls generalizing l with
  | nil => exact nomatch h
  | cons c calls ih =>
    rw [askAll, List.flatMap_cons, List.mem_append, (l.ask_eq c).1] at h
    rw [Call.parts, List.flatten_cons, drop_part, List.mem_append]
    exact h.imp Call.mem_of_mem_handedOut ih

/-- These are items that a lexer has before it. -/
theorem mem_drain_of_mem_handedOut {calls : List Call}
    (h : t ∈ (l.askAll calls).1.flatMap Answer.handedOut) : .ok t ∈ l.drain.1 := by
  rw [(l.askAll_eq calls).2]
  exact List.mem_append_left _ (mem_parts_of_mem_handedOut h)

end Lexer

/-! ## Tokens of a text -/

/-- Every token of segments has the span of a part of their text. -/
theorem Segment.exists_over_of_mem_row {C : Catalog} {ss : List Segment} {t : Token}
    (h : t ∈ row C [] ss) :
    ∃ first part after, ss.flatMap text = first ++ (part ++ after) ∧ t.span = .over first part := by
  obtain ⟨b, s, d, x, hs, hx, rfl⟩ := mem_row_iff.1 h
  obtain ⟨after, hafter⟩ := exists_text_eq_of_stands hs hx
  exact ⟨_, x.part, after, hafter, rfl⟩

/-- The items of a source that are tokens are those of its leading segments. -/
theorem exists_mem_row_of_mem_drain {C : Catalog} {policy : StringPolicy} {source : String}
    {t : Token} (hlen : source.length ≤ wordMax)
    (h : .ok t ∈ (Lexer.ofSource C policy source).drain.1) :
    ∃ ss left, Segment.Leads policy source.toList ss left ∧ t ∈ Segment.row C [] ss := by
  generalize hstream : (Lexer.ofSource C policy source).drain.1 = stream at h
  have hread : IsStream C policy source stream := hstream ▸ isStream_drain hlen
  match hread with
  | .read htokens =>
    obtain ⟨-, ss, hss, rfl⟩ := tokenize_eq_row_iff.1 htokens
    exact ⟨ss, [], Segment.factors_iff_leads.1 hss, Lexer.mem_of_ok_mem_map h⟩
  | .stopped hstops _ =>
    obtain ⟨ss, left, hleads, -, -, rfl⟩ := (stops_iff_leads hlen).1 hstops
    rcases List.mem_append.1 h with hmem | hmem
    · exact ⟨ss, left, hleads, Lexer.mem_of_ok_mem_map hmem⟩
    · exact nomatch List.mem_singleton.1 hmem

/-- The ends of the span of a part are the places that the text before them shows. -/
theorem Span.over_eq_reached {cs first part after : List Char}
    (h : cs = first ++ (part ++ after)) :
    (Span.over first part).start = reached (cs.take (Span.over first part).start.offset) ∧
      (Span.over first part).stop = reached (cs.take (Span.over first part).stop.offset) := by
  constructor
  · change reached first = reached (cs.take first.length)
    rw [h, List.take_left]
  · change reached (first ++ part) = reached (cs.take (first ++ part).length)
    rw [h, ← List.append_assoc, List.take_left]

/-- **Both ends of every span are true**: with the offset goes the line and the column that the
characters before it show, whichever calls the token is handed out by. -/
theorem span_eq_reached {C : Catalog} {policy : StringPolicy} {source : String}
    {calls : List Call} {t : Token} (hlen : source.length ≤ wordMax)
    (h : t ∈ ((Lexer.ofSource C policy source).askAll calls).1.flatMap Answer.handedOut) :
    t.span.start = reached (source.toList.take t.span.start.offset) ∧
      t.span.stop = reached (source.toList.take t.span.stop.offset) := by
  obtain ⟨ss, left, hleads, hrow⟩ :=
    exists_mem_row_of_mem_drain hlen (Lexer.mem_drain_of_mem_handedOut h)
  obtain ⟨first, part, after, htext, hspan⟩ := Segment.exists_over_of_mem_row hrow
  have hsource : source.toList = first ++ (part ++ (after ++ left)) := by
    rw [← hleads.text_eq, htext, List.append_assoc, List.append_assoc]
  rw [hspan]
  exact Span.over_eq_reached hsource

/-- A line break in a string, in a character literal and at the end of a comment each begin a line;
a carriage return and a line separator do not. -/
theorem span_eq_reached_separators :
    (⟨13, 3, 5⟩ : Position) = reached ("\"\n\"@\n#x\nλrev\r\u2028@".toList.take 13) ∧
      (⟨14, 3, 6⟩ : Position) = reached ("\"\n\"@\n#x\nλrev\r\u2028@".toList.take 14) := by
  have hlen : "\"\n\"@\n#x\nλrev\r\u2028@".length ≤ wordMax := by decide +kernel
  have hmem : ⟨.space, " ", ⟨⟨13, 3, 5⟩, ⟨14, 3, 6⟩⟩⟩ ∈
      ((Lexer.ofSource .standard .reject "\"\n\"@\n#x\nλrev\r\u2028@").askAll
        [.take 4, .drain]).1.flatMap Answer.handedOut := by
    decide +kernel
  exact span_eq_reached hlen hmem

end Mnemonic
