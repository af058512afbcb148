import Mnemonic.Proofs.Coverage
import Mnemonic.Proofs.Turns

/-!
# Proofs/States — the states of a lexer

A lexer is between two segments of its text, or before some lexemes of the last segment it has
read, or stopped at a literal that the text does not finish (`State`).  No turn leads out of these
states (`State.of_turn_inl`, `State.of_turn_inr`), so no calls do (`State.of_passes`): what holds in
the three forms holds of all that a lexer can become.
-/

namespace Mnemonic

open Position (reached)
open Segment (Leads Unreadable)

namespace Segment

variable {C : Catalog} {s : Segment}

/-- Only a word stands for more than one lexeme. -/
theorem kind_eq_operator_of_lexemes {ws xs : List Lexeme} {x y : Lexeme}
    (h : s.lexemes C = ws ++ x :: xs) (hy : y ∈ xs) : y.kind = .operator := by
  match s with
  | word run =>
    have hmem : y ∈ (word run).lexemes C := by
      rw [h]
      exact List.mem_append_right ws (List.mem_cons_of_mem x hy)
    obtain ⟨p, -, rfl⟩ := List.mem_map.1 hmem
    rfl
  | comment _ _ =>
    exact absurd h.symm (List.append_ne_nil_of_right_ne_nil ws (List.cons_ne_nil x xs))
  | blank _ | string _ _ | char _ | paren _ | bracket _ | number _ =>
    -- there is one lexeme, so that nothing is behind `x`
    have hlen : 1 = (ws ++ x :: xs).length := congrArg List.length h
    have hpos := List.length_pos_of_mem hy
    rw [List.length_append, List.length_cons] at hlen
    omega

end Segment

namespace Lexer

/-! ## States -/

/-- A lexer that has read the segments `ss` and `s` and has the tokens of `xs`, which are behind the
lexemes `ws` of `s`, to hand out. -/
def within (C : Catalog) (policy : StringPolicy) (ss : List Segment) (s : Segment)
    (left : List Char) (ws xs : List Lexeme) : Lexer :=
  { Lexer.between C policy ((ss ++ [s]).flatMap Segment.text) left with
    pending := Lexeme.row (ss.flatMap Segment.text ++ ws.flatMap Lexeme.part) xs }

/-- The states of a lexer over the text `cs`, each with the items that it has used up. -/
inductive State (C : Catalog) (policy : StringPolicy) (cs : List Char) : List Item → Lexer → Prop
  /-- Between two segments. -/
  | between {ss : List Segment} {left : List Char} (h : Leads policy cs ss left) :
      State C policy cs ((Segment.row C [] ss).map .ok)
        (between C policy (ss.flatMap Segment.text) left)
  /-- Behind the lexemes `ws` of a segment that has been read, and before others. -/
  | within {ss : List Segment} {s : Segment} {left : List Char} {ws xs : List Lexeme} {x : Lexeme}
      (h : Leads policy cs (ss ++ [s]) left) (hs : s.lexemes C = ws ++ x :: xs) :
      State C policy cs ((Segment.row C [] ss ++ Lexeme.row (ss.flatMap Segment.text) ws).map .ok)
        (within C policy ss s left ws (x :: xs))
  /-- Stopped at a literal that the text does not finish. -/
  | failed {ss : List Segment} {left : List Char} {u : Unterminated} (h : Leads policy cs ss left)
      (hu : Unreadable policy left u) :
      State C policy cs
        ((Segment.row C [] ss).map .ok ++
          [.error (.unterminated (reached (ss.flatMap Segment.text)) u)])
        ((Lexer.between C policy (ss.flatMap Segment.text) left).fail
          (.unterminated (reached (ss.flatMap Segment.text)) u))

variable {C : Catalog} {policy : StringPolicy} {cs left : List Char} {s : Segment}
  {ss : List Segment} {ws xs : List Lexeme} {x : Lexeme} {used is : List Item} {l l' : Lexer}
  {i : Option Item}

/-- Behind some lexemes of a segment is before others, or behind the segment. -/
theorem State.of_lexemes (h : Leads policy cs (ss ++ [s]) left) (hs : s.lexemes C = ws ++ xs) :
    State C policy cs ((Segment.row C [] ss ++ Lexeme.row (ss.flatMap Segment.text) ws).map .ok)
      (Lexer.within C policy ss s left ws xs) := by
  match xs with
  | x :: xs => exact .within h hs
  | [] =>
    rw [List.append_nil] at hs
    have hrow : Segment.row C [] (ss ++ [s]) =
        Segment.row C [] ss ++ Lexeme.row (ss.flatMap Segment.text) ws := by
      rw [Segment.row_append, Segment.row, hs, Segment.row, List.append_nil, List.nil_append]
    rw [← hrow]
    exact .between h

/-! ## Turns within a segment -/

/-- A turn within a segment hands out the token of the next lexeme. -/
theorem turn_within :
    (Lexer.within C policy ss s left ws (x :: xs)).turn =
      .inl (some (.ok (x.token (ss.flatMap Segment.text ++ ws.flatMap Lexeme.part))),
        Lexer.within C policy ss s left (ws ++ [x]) xs) := by
  have hparts : ss.flatMap Segment.text ++ (ws ++ [x]).flatMap Lexeme.part =
      ss.flatMap Segment.text ++ ws.flatMap Lexeme.part ++ x.part := by
    rw [List.flatMap_append, List.flatMap_singleton, List.append_assoc]
  rw [turn_of_pending rfl rfl, within, within, hparts]

/-- Behind one lexeme more, one item more is used up. -/
theorem State.within_concat (h : Leads policy cs (ss ++ [s]) left)
    (hs : s.lexemes C = ws ++ x :: xs) :
    State C policy cs
      ((Segment.row C [] ss ++ Lexeme.row (ss.flatMap Segment.text) ws).map .ok ++
        [.ok (x.token (ss.flatMap Segment.text ++ ws.flatMap Lexeme.part))])
      (Lexer.within C policy ss s left (ws ++ [x]) xs) := by
  have hnext := State.of_lexemes h (hs.trans (List.append_cons ws x xs))
  have hrow : Lexeme.row (ss.flatMap Segment.text) (ws ++ [x]) =
      Lexeme.row (ss.flatMap Segment.text) ws ++
        [x.token (ss.flatMap Segment.text ++ ws.flatMap Lexeme.part)] :=
    Lexeme.row_append ws [x] _
  rw [hrow, ← List.append_assoc, List.map_append] at hnext
  exact hnext

/-- Behind its first lexeme, what is pending of a segment are operators. -/
theorem kind_of_mem_pending_within {t : Token} (hs : s.lexemes C = ws ++ x :: xs)
    (ht : t ∈ (Lexer.within C policy ss s left (ws ++ [x]) xs).pending) : t.kind = .operator := by
  obtain ⟨d, y, hy, rfl⟩ := Lexeme.mem_row_iff.1 ht
  exact Segment.kind_eq_operator_of_lexemes hs hy.mem

/-! ## Turns between segments -/

/-- What a turn between two segments comes to. -/
theorem turn_between (hlen : cs.length ≤ wordMax) (h : Leads policy cs ss left) :
    (left = [] ∧ (Lexer.between C policy (ss.flatMap Segment.text) left).turn =
      .inl (none, Lexer.between C policy (ss.flatMap Segment.text) left)) ∨
    (∃ u, Unreadable policy left u ∧
      (Lexer.between C policy (ss.flatMap Segment.text) left).turn =
        .inl (some (.error (.unterminated (reached (ss.flatMap Segment.text)) u)),
          (Lexer.between C policy (ss.flatMap Segment.text) left).fail
            (.unterminated (reached (ss.flatMap Segment.text)) u))) ∨
    ∃ s rest, s.Fits policy rest ∧ s.text ++ rest = left ∧
      (Lexer.between C policy (ss.flatMap Segment.text) left).turn =
        .inr (Lexer.within C policy ss s rest [] (s.lexemes C)) := by
  match left with
  | [] => exact .inl ⟨rfl, turn_of_rest_nil rfl rfl rfl⟩
  | c :: tail =>
    have hturn := turn_of_rest_cons
      (l := Lexer.between C policy (ss.flatMap Segment.text) (c :: tail)) rfl rfl rfl
    have hcs := congrArg List.length h.text_eq
    rw [List.length_append] at hcs
    rcases hread : Segment.read policy c tail with u | ⟨s, rest⟩
    · have hu := Segment.read_eq_error_iff.1 hread
      rw [readSegment_of_unreadable hu] at hturn
      exact .inr (.inl ⟨u, hu, hturn⟩)
    · obtain ⟨htext, hs⟩ := Segment.read_eq_ok_iff.1 hread
      have hleft := congrArg List.length htext
      rw [List.length_append] at hleft
      rw [readSegment_of_fits (by omega) hs htext, if_pos (by omega)] at hturn
      refine .inr (.inr ⟨s, rest, hs, htext, ?_⟩)
      rwa [within, List.flatMap_append, List.flatMap_singleton, List.flatMap_nil, List.append_nil]

/-- **A turn that answers leads from state to state**, what is pending then are operators, and
nothing overflows. -/
theorem State.of_turn_inl (hlen : cs.length ≤ wordMax) (h : State C policy cs used l)
    (ht : l.turn = .inl (i, l')) :
    State C policy cs (used ++ i.toList) l' ∧ (∀ t ∈ l'.pending, t.kind = .operator) ∧
      ∀ cause, i ≠ some (.error (.overflow cause)) := by
  match h with
  | .between hleads =>
    rcases turn_between (C := C) hlen hleads with
      ⟨-, hturn⟩ | ⟨u, hu, hturn⟩ | ⟨s, rest, -, -, hturn⟩
    · obtain ⟨rfl, rfl⟩ := Prod.mk.inj (Sum.inl.inj (hturn.symm.trans ht))
      refine ⟨?_, (fun t ht => nomatch ht), fun _ hi => nomatch hi⟩
      rw [Option.toList_none, List.append_nil]
      exact .between hleads
    · obtain ⟨rfl, rfl⟩ := Prod.mk.inj (Sum.inl.inj (hturn.symm.trans ht))
      refine ⟨.failed hleads hu, fun t ht => ?_, fun cause hi => ?_⟩
      · rw [pending_fail] at ht
        exact nomatch ht
      · -- the literal begins before the end of the text, so its line and column can be counted
        have hbefore := Nat.lt_of_lt_of_le (hleads.length_lt hu.ne_nil) hlen
        rw [LexError.unterminated_eq_unfinished hbefore] at hi
        match u with
        | .char | .string => exact nomatch hi
    · exact absurd (ht.symm.trans hturn) Sum.inl_ne_inr
  | .within hleads hs =>
    obtain ⟨rfl, rfl⟩ := Prod.mk.inj (Sum.inl.inj (turn_within.symm.trans ht))
    exact ⟨.within_concat hleads hs, fun t ht => kind_of_mem_pending_within hs ht,
      fun _ hi => nomatch hi⟩
  | .failed hleads hu =>
    rw [turn_of_failed (failed_fail _ _)] at ht
    obtain ⟨rfl, rfl⟩ := Prod.mk.inj (Sum.inl.inj ht)
    refine ⟨?_, fun t ht => ?_, fun _ hi => nomatch hi⟩
    · rw [Option.toList_none, List.append_nil]
      exact .failed hleads hu
    · rw [pending_fail] at ht
      exact nomatch ht

/-- Whether the next turn of a lexer over `cs` stays inside the text and inside the words: it
answers and nothing overflows, or it reads a segment, which is a part of the text and not empty, and
makes its tokens pending. -/
inductive SafeTurn (cs : List Char) (l : Lexer) : Prop
  | answers {i : Option Item} {l' : Lexer} (h : l.turn = .inl (i, l'))
      (hcount : ∀ cause, i ≠ some (.error (.overflow cause)))
  | reads {s : Segment} {l' : Lexer} (h : l.turn = .inr l') (hs : s.Fits l.policy l'.rest)
      (htext : s.text ++ l'.rest = l.rest)
      (hslice : Span.slice ⟨l.position, l'.position⟩ cs = s.text)
      (hlt : l.position.offset < l'.position.offset) (hle : l'.position.offset ≤ cs.length)
      (hpending : s.isComment = false → l'.pending ≠ [])

/-- **A turn that reads a segment leads from state to state too**, inside the text. -/
theorem State.of_turn_inr (hlen : cs.length ≤ wordMax) (h : State C policy cs used l)
    (ht : l.turn = .inr l') : State C policy cs used l' ∧ l.SafeTurn cs := by
  match h with
  | @State.between _ _ _ ss left hleads =>
    rcases turn_between (C := C) hlen hleads with
      ⟨-, hturn⟩ | ⟨u, hu, hturn⟩ | ⟨s, rest, hs, rfl, hturn⟩
    · exact absurd (hturn.symm.trans ht) Sum.inl_ne_inr
    · exact absurd (hturn.symm.trans ht) Sum.inl_ne_inr
    obtain rfl := Sum.inr.inj (hturn.symm.trans ht)
    have hnext : Leads policy cs (ss ++ [s]) rest := hleads.append (.cons hs .nil)
    have htext := List.flatMap_append.trans
      (congrArg ((ss.flatMap Segment.text) ++ ·) (List.flatMap_singleton Segment.text s))
    constructor
    · have hstate := State.of_lexemes (C := C) hnext (List.nil_append _).symm
      rwa [Lexeme.row, List.append_nil] at hstate
    · refine .reads hturn hs rfl ?_ ?_ ?_ fun hcomment hnil => ?_
      · have hslice := Span.slice_over (ss.flatMap Segment.text) s.text rest
        rw [hleads.text_eq] at hslice
        change Span.slice ⟨_, reached ((ss ++ [s]).flatMap Segment.text)⟩ cs = s.text
        rw [htext]
        exact hslice
      · change (ss.flatMap Segment.text).length < ((ss ++ [s]).flatMap Segment.text).length
        rw [htext, List.length_append]
        exact Nat.lt_add_of_pos_right (List.length_pos_iff.2 hs.text_ne_nil)
      · change ((ss ++ [s]).flatMap Segment.text).length ≤ cs.length
        rw [← hnext.text_eq, List.length_append]
        exact Nat.le_add_right _ _
      · have hnone := congrArg (List.map Token.shown) hnil
        exact Segment.lexemes_ne_nil hcomment hs.text_ne_nil
          (List.map_eq_nil_iff.1 ((Lexeme.map_shown_row _ _).symm.trans hnone))
  | .within _ _ => exact absurd (turn_within.symm.trans ht) Sum.inl_ne_inr
  | .failed _ _ =>
    exact absurd ((turn_of_failed (failed_fail _ _)).symm.trans ht) Sum.inl_ne_inr

/-! ## What calls lead to -/

theorem State.of_turns (hlen : cs.length ≤ wordMax) (h : State C policy cs used l)
    (ht : Turns l l') : State C policy cs used l' := by
  induction ht with
  | refl => exact h
  | tail _ hturn ih => exact (ih.of_turn_inr hlen hturn).1

/-- The next turn of a state is safe. -/
theorem State.safeTurn (hlen : cs.length ≤ wordMax) (h : State C policy cs used l) :
    l.SafeTurn cs := by
  rcases ht : l.turn with ⟨i, l'⟩ | l'
  · exact .answers ht (h.of_turn_inl hlen ht).2.2
  · exact (h.of_turn_inr hlen ht).2

/-- **Asking for the next item leads from state to state.** -/
theorem State.next (hlen : cs.length ≤ wordMax) (h : State C policy cs used l) :
    State C policy cs (used ++ l.next.1.toList) l.next.2 ∧
      ∀ t ∈ l.next.2.pending, t.kind = .operator := by
  obtain ⟨l', hturns, hl'⟩ := l.exists_turns
  obtain ⟨hnext, hkind, -⟩ := (h.of_turns hlen hturns).of_turn_inl hlen hl'
  exact ⟨hnext, hkind⟩

/-- **So does asking many times.** -/
theorem State.of_passes (hlen : cs.length ≤ wordMax) (h : State C policy cs used l)
    (hkind : ∀ t ∈ l.pending, t.kind = .operator) (hp : Passes l is l') :
    State C policy cs (used ++ is) l' ∧ ∀ t ∈ l'.pending, t.kind = .operator := by
  induction hp generalizing used with
  | refl =>
    rw [List.append_nil]
    exact ⟨h, hkind⟩
  | next _ ih =>
    obtain ⟨hnext, hkinds⟩ := h.next hlen
    rw [← List.append_assoc]
    exact ih hnext hkinds

end Lexer

end Mnemonic
