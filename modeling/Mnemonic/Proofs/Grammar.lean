import Mnemonic.Proofs.Stream

/-!
# Proofs/Grammar — the lexer reads exactly the lexical grammar

`Yields C before ss ts` lists, form by form, which tokens a row of segments stands for.  A source is
read exactly when segments make it up, as the tokens that these yield, and the segments are unique
(`tokenize_iff_factors`).
-/

namespace Mnemonic

open Position (reached)

namespace Segment

/-! ## What segments stand for -/

/-- The kind of the token of a segment that is printed as it stands. -/
def literalKind? : Segment → Option Token.Kind
  | string _ _ => some .string
  | char _ => some .char
  | paren _ => some .paren
  | bracket _ => some .bracket
  | number _ => some .number
  | blank _ | comment _ _ | word _ => none

/-- Whether segments that stand after the text `before` stand for the tokens `ts`. -/
inductive Yields (C : Catalog) : List Char → List Segment → List Token → Prop
  | nil {before : List Char} : Yields C before [] []
  | blank {before : List Char} {c : Char} {ss : List Segment} {ts : List Token}
      (hss : Yields C (before ++ [c]) ss ts) :
      Yields C before (.blank c :: ss) (⟨.space, " ", .over before [c]⟩ :: ts)
  | comment {before body : List Char} {closed : Bool} {ss : List Segment} {ts : List Token}
      (hss : Yields C (before ++ (Segment.comment body closed).text) ss ts) :
      Yields C before (.comment body closed :: ss) ts
  | literal {before : List Char} {s : Segment} {kind : Token.Kind} {ss : List Segment}
      {ts : List Token} (hkind : s.literalKind? = some kind)
      (hss : Yields C (before ++ s.text) ss ts) :
      Yields C before (s :: ss) (⟨kind, .ofList s.text, .over before s.text⟩ :: ts)
  | word {before run : List Char} {ss : List Segment} {us ts : List Token}
      (hrun : C.decompose run (reached before) = .ok us) (hss : Yields C (before ++ run) ss ts) :
      Yields C before (.word run :: ss) (us ++ ts)

variable {C : Catalog} {policy : StringPolicy} {cs before : List Char} {ss : List Segment}
  {ts : List Token}

/-- The lexemes of a literal are the literal. -/
theorem lexemes_of_literalKind? {s : Segment} {kind : Token.Kind}
    (h : s.literalKind? = some kind) : s.lexemes C = [.verbatim kind s.text] := by
  match s with
  | string _ _ | char _ | paren _ | bracket _ | number _ =>
    obtain rfl := Option.some.inj h
    rfl

/-- Running a word through the catalog gives the tokens of its lexemes. -/
theorem decompose_run {run rest : List Char} (h : (Segment.word run).Fits policy rest)
    (hlen : before.length + run.length ≤ wordMax) :
    C.decompose run (reached before) = .ok (Lexeme.row before ((Segment.word run).lexemes C)) :=
  tokens_over C h hlen

/-- The segments of a text yield their row. -/
theorem yields_row (h : Factors policy cs ss) (hlen : before.length + cs.length ≤ wordMax) :
    Yields C before ss (row C before ss) := by
  induction h generalizing before with
  | nil => exact .nil
  | @cons s rest ss hs _ ih =>
    rw [List.length_append] at hlen
    have hfirst : before.length + s.text.length ≤ wordMax := by omega
    have hss : Yields C (before ++ s.text) ss (row C (before ++ s.text) ss) :=
      ih (by rw [List.length_append]; omega)
    match s with
    | .blank _ => exact .blank hss
    | .comment _ _ => exact .comment hss
    | .string _ _ | .char _ | .paren _ | .bracket _ | .number _ => exact .literal rfl hss
    | .word _ => exact .word (decompose_run hs hfirst) hss

/-- They yield nothing else. -/
theorem Yields.eq_row (h : Factors policy cs ss) (hlen : before.length + cs.length ≤ wordMax)
    (hyields : Yields C before ss ts) : ts = row C before ss := by
  induction h generalizing before ts with
  | nil =>
    match hyields with
    | .nil => rfl
  | @cons s rest ss hs _ ih =>
    rw [List.length_append] at hlen
    have hfirst : before.length + s.text.length ≤ wordMax := by omega
    have hrest : (before ++ s.text).length + rest.length ≤ wordMax := by
      rw [List.length_append]
      omega
    match hyields with
    | .blank hss | .comment hss =>
      rw [ih hrest hss]
      rfl
    | .literal hkind hss =>
      rw [ih hrest hss, row, lexemes_of_literalKind? hkind]
      rfl
    | .word hrun hss =>
      rw [ih hrest hss, ← Except.ok.inj ((decompose_run hs hfirst).symm.trans hrun)]
      rfl

/-- **The segments of a text yield their row, and nothing else.** -/
theorem yields_iff_eq_row (h : Factors policy cs ss)
    (hlen : before.length + cs.length ≤ wordMax) : Yields C before ss ts ↔ ts = row C before ss :=
  ⟨Yields.eq_row h hlen, fun hts => hts ▸ yields_row h hlen⟩

end Segment

open Segment (Factors Yields)

/-- **The lexer reads exactly the sources that segments make up, as what these yield**, in one way,
as long as a word can count the source. -/
theorem tokenize_iff_factors (C : Catalog) (policy : StringPolicy) (source : String) :
    (∀ ts, tokenize C policy source = .ok ts ↔
      source.length ≤ wordMax ∧ ∃ ss, Factors policy source.toList ss ∧ Yields C [] ss ts) ∧
    ((∃ ts, tokenize C policy source = .ok ts) ↔
      source.length ≤ wordMax ∧ ∃ ss, Factors policy source.toList ss) ∧
    ∀ ss tt, Factors policy source.toList ss → Factors policy source.toList tt → ss = tt := by
  have hrow : source.length ≤ wordMax → ∀ {ss ts}, Factors policy source.toList ss →
      (Yields C [] ss ts ↔ ts = Segment.row C [] ss) := fun hlen _ _ hss =>
    Segment.yields_iff_eq_row hss (by rwa [List.length_nil, Nat.zero_add, String.length_toList])
  refine ⟨fun ts => ?_, ?_, fun ss tt => Segment.Factors.unique⟩
  · constructor
    · intro h
      obtain ⟨hlen, ss, hss, hts⟩ := tokenize_eq_row_iff.1 h
      exact ⟨hlen, ss, hss, (hrow hlen hss).2 hts⟩
    · rintro ⟨hlen, ss, hss, hyields⟩
      exact tokenize_eq_row_iff.2 ⟨hlen, ss, hss, (hrow hlen hss).1 hyields⟩
  · constructor
    · rintro ⟨ts, h⟩
      obtain ⟨hlen, ss, hss, -⟩ := tokenize_eq_row_iff.1 h
      exact ⟨hlen, ss, hss⟩
    · rintro ⟨hlen, ss, hss⟩
      exact ⟨_, tokenize_eq_row_iff.2 ⟨hlen, ss, hss, rfl⟩⟩

end Mnemonic
