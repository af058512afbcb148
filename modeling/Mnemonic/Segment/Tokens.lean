import Mnemonic.Run
import Mnemonic.Segment.Basic

/-!
# Segment/Tokens — what a segment stands for
-/

namespace Mnemonic.Segment

/-- The tokens that a segment at `span` stands for: comments none, words their operators, blanks a
space, and every literal itself. -/
def tokens (C : Catalog) (span : Span) (s : Segment) : Except Overflow (List Token) :=
  match s with
  | blank _ => .ok [⟨.space, " ", span⟩]
  | comment _ _ => .ok []
  | string _ _ => .ok [⟨.string, .ofList s.text, span⟩]
  | char _ => .ok [⟨.char, .ofList s.text, span⟩]
  | paren _ => .ok [⟨.paren, .ofList s.text, span⟩]
  | bracket _ => .ok [⟨.bracket, .ofList s.text, span⟩]
  | number _ => .ok [⟨.number, .ofList s.text, span⟩]
  | word run => C.decompose run span.start

/-- A segment stands for no more tokens than it has characters. -/
theorem length_tokens_le {C : Catalog} {span : Span} {s : Segment} {ts : List Token}
    (h : s.tokens C span = .ok ts) (hs : s.text ≠ []) : ts.length ≤ s.text.length := by
  cases s with
  | word run => exact Catalog.length_decompose_le h
  | comment body closed =>
    cases h
    exact Nat.zero_le _
  | _ =>
    cases h
    exact List.length_pos_iff.2 hs

end Mnemonic.Segment
