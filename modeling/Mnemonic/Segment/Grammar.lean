import Mnemonic.Segment.Basic

/-!
# Segment/Grammar — which segments a source is made of

`s.Fits policy rest` says, without reading anything, that `s` is a segment when `rest` follows it.
What follows matters only where a run has to be as long as possible, and where a comment or a string
ends with the source.  `Factors policy cs ss` says that `ss` are the segments of `cs`.
-/

namespace Mnemonic.Segment

/-- A character that can begin a word. -/
def opensWord (c : Char) : Bool := (c == 'λ' || !isDelimiter c) && !c.isDigit

/-- Whether `s` is a segment when `rest` follows it. -/
inductive Fits (policy : StringPolicy) : Segment → List Char → Prop
  | blank {c : Char} {rest : List Char} (hc : isBlank c = true) : Fits policy (.blank c) rest
  | comment {body rest : List Char} (hb : '\n' ∉ body) : Fits policy (.comment body true) rest
  | lastComment {body : List Char} (hb : '\n' ∉ body) : Fits policy (.comment body false) []
  | string {body rest : List Char} (hb : '"' ∉ body) : Fits policy (.string body true) rest
  | lastString {body : List Char} (hp : policy = .extendToEnd) (hb : '"' ∉ body) :
      Fits policy (.string body false) []
  | char {c : Char} {rest : List Char} : Fits policy (.char c) rest
  | paren {c : Char} {rest : List Char} (hc : c = '(' ∨ c = ')') : Fits policy (.paren c) rest
  | bracket {c : Char} {rest : List Char} (hc : c = '[' ∨ c = ']') :
      Fits policy (.bracket c) rest
  | number {digits rest : List Char} (hne : digits ≠ []) (hd : ∀ c ∈ digits, c.isDigit = true)
      (hr : ∀ c ∈ rest.head?, c.isDigit = false) : Fits policy (.number digits) rest
  | word {c : Char} {tail rest : List Char} (hc : opensWord c = true)
      (ht : ∀ d ∈ tail, isDelimiter d = false) (hr : ∀ d ∈ rest.head?, isDelimiter d = true) :
      Fits policy (.word (c :: tail)) rest

/-- Whether `ss` are the segments of a text. -/
inductive Factors (policy : StringPolicy) : List Char → List Segment → Prop
  | nil : Factors policy [] []
  | cons {s : Segment} {rest : List Char} {ss : List Segment} (hs : s.Fits policy rest)
      (hss : Factors policy rest ss) : Factors policy (s.text ++ rest) (s :: ss)

/-- No segment is empty. -/
theorem Fits.text_ne_nil {policy : StringPolicy} {s : Segment} {rest : List Char}
    (h : s.Fits policy rest) : s.text ≠ [] := by
  cases h with
  | number hne _ _ => exact hne
  | _ => exact List.cons_ne_nil _ _

end Mnemonic.Segment
