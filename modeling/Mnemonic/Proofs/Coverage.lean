import Mnemonic.Proofs.Parts
import Mnemonic.Proofs.Stream

/-!
# Proofs/Coverage — tokens cover their source once, comments apart

The spans of the tokens of a source are non-empty and follow one another, and they leave out the
comments and nothing else.  Every token agrees with the characters that its span covers: literals
are these characters, a space is one blank, and an operator is the glyph of the instruction they
name or the one character they are (`tokenize_covers`).
-/

namespace Mnemonic

open Segment (Factors)

/-! ## Statements about spans -/

/-- The characters of a source that a span covers. -/
def Span.slice (span : Span) (cs : List Char) : List Char :=
  (cs.drop span.start.offset).take (span.stop.offset - span.start.offset)

/-- Whether the character at `o` is one that a token stands for. -/
def Token.Covers (t : Token) (o : Nat) : Prop :=
  t.span.start.offset ≤ o ∧ o < t.span.stop.offset

/-- Whether the character at `o` belongs to a comment or is the line break that ends one. -/
def Segment.InComment (ss : List Segment) (o : Nat) : Prop :=
  ∃ before s, Stands text ss before s ∧ s.isComment = true ∧
    before.length ≤ o ∧ o < before.length + s.text.length

/-- Whether `run` is free of delimiters, but for a lambda that leads the word it is cut from. -/
def Segment.FreeOfDelimiters (ss : List Segment) (o : Nat) (run : List Char) : Prop :=
  (∀ d ∈ run, isDelimiter d = false) ∨
    ∃ before word tail, Stands text ss before (.word word) ∧ before.length = o ∧
      run = 'λ' :: tail ∧ ∀ d ∈ tail, isDelimiter d = false

/-- Whether `output` is what the characters `run` of a word are printed as. -/
def Catalog.PrintsAs (C : Catalog) (run : List Char) (output : String) : Prop :=
  (∃ i, C.resolve (.ofList run) = .unique i ∧ output = i.glyph) ∨
    ∃ c, run = [c] ∧ output = .singleton c

/-- Whether a token agrees with the characters that it covers, in a source made up of `ss`. -/
def Token.Agrees (C : Catalog) (ss : List Segment) (cs : List Char) (t : Token) : Prop :=
  match t.kind with
  | .number | .string | .char | .paren | .bracket => t.text = .ofList (t.span.slice cs)
  | .space => t.text = " " ∧ ∃ c, isBlank c = true ∧ t.span.slice cs = [c]
  | .operator =>
    Segment.FreeOfDelimiters ss t.span.start.offset (t.span.slice cs) ∧
      C.PrintsAs (t.span.slice cs) t.text

/-- How the tokens `ts` of a source stand to its characters `cs`, which `ss` make up. -/
structure Token.Covering (C : Catalog) (ss : List Segment) (cs : List Char) (ts : List Token) :
    Prop where
  nonempty : ∀ t ∈ ts, t.span.start.offset < t.span.stop.offset
  inside : ∀ t ∈ ts, t.span.stop.offset ≤ cs.length
  /-- Spans follow one another, so that no two of them share a character. -/
  ordered : ts.Pairwise fun t u => t.span.stop.offset ≤ u.span.start.offset
  /-- The characters of comments, and only these, are left out. -/
  covers_iff : ∀ o < cs.length, (∃ t ∈ ts, t.Covers o) ↔ ¬ Segment.InComment ss o
  agrees : ∀ t ∈ ts, t.Agrees C ss cs

/-! ## Spans of parts -/

theorem Span.slice_over (before text after : List Char) :
    (Span.over before text).slice (before ++ (text ++ after)) = text := by
  change List.take ((before ++ text).length - before.length) (List.drop before.length _) = text
  rw [List.length_append, Nat.add_sub_cancel_left, List.drop_left, List.take_left]

namespace Lexeme

theorem start_token (before : List Char) (x : Lexeme) :
    (x.token before).span.start.offset = before.length := rfl

theorem stop_token (before : List Char) (x : Lexeme) :
    (x.token before).span.stop.offset = before.length + x.part.length :=
  List.length_append

theorem covers_token_iff {before : List Char} {x : Lexeme} {o : Nat} :
    (x.token before).Covers o ↔ before.length ≤ o ∧ o < before.length + x.part.length := by
  rw [Token.Covers, start_token, stop_token]

/-- The tokens of some lexemes stand where the lexemes do. -/
theorem mem_row_iff {xs : List Lexeme} {before : List Char} {t : Token} :
    t ∈ row before xs ↔ ∃ d x, Stands part xs d x ∧ t = x.token (before ++ d) := by
  induction xs generalizing before with
  | nil =>
    constructor
    · exact fun h => absurd h List.not_mem_nil
    · rintro ⟨_, _, h, _⟩
      exact absurd h.mem List.not_mem_nil
  | cons x xs ih =>
    rw [row, List.mem_cons, ih]
    constructor
    · rintro (rfl | ⟨d, y, hy, rfl⟩)
      · exact ⟨[], x, .head, by rw [List.append_nil]⟩
      · exact ⟨x.part ++ d, y, .tail hy, by rw [List.append_assoc]⟩
    · rintro ⟨d, y, hy, rfl⟩
      obtain ⟨rfl, rfl⟩ | ⟨d, hd, rfl⟩ := stands_cons_iff.1 hy
      · exact .inl (by rw [List.append_nil])
      · exact .inr ⟨d, y, hd, by rw [List.append_assoc]⟩

/-- The tokens of some lexemes stay between the ends of these. -/
theorem bounds_of_mem_row {xs : List Lexeme} {before : List Char} {t : Token}
    (h : t ∈ row before xs) :
    before.length ≤ t.span.start.offset ∧
      t.span.stop.offset ≤ before.length + (xs.flatMap part).length := by
  obtain ⟨d, x, hx, rfl⟩ := mem_row_iff.1 h
  have hle := hx.length_le
  rw [start_token, stop_token, List.length_append]
  omega

/-- The tokens of some lexemes follow one another. -/
theorem pairwise_row (xs : List Lexeme) (before : List Char) :
    (row before xs).Pairwise fun t u => t.span.stop.offset ≤ u.span.start.offset := by
  induction xs generalizing before with
  | nil => exact .nil
  | cons x xs ih =>
    refine .cons (fun u hu => ?_) (ih _)
    have hle := (bounds_of_mem_row hu).1
    rw [List.length_append] at hle
    rwa [stop_token]

end Lexeme

namespace Segment

variable {C : Catalog} {policy : StringPolicy} {cs before : List Char} {ss : List Segment}
  {t : Token}

/-- What stands for something is no comment. -/
theorem isComment_of_mem_lexemes {s : Segment} {x : Lexeme} (h : x ∈ s.lexemes C) :
    s.isComment = false := by
  match s with
  | comment _ _ => exact nomatch h
  | blank _ | string _ _ | char _ | paren _ | bracket _ | number _ | word _ => rfl

/-- The lexemes of a segment do not reach beyond it. -/
theorem length_flatMap_part_le (s : Segment) :
    ((s.lexemes C).flatMap Lexeme.part).length ≤ s.text.length := by
  rcases hs : s.isComment with _ | _
  · exact Nat.le_of_eq (congrArg List.length (flatMap_part_lexemes C hs))
  · match s with
    | comment _ _ => exact Nat.zero_le _

/-- The tokens of some segments stand where the lexemes of these do. -/
theorem mem_row_iff :
    t ∈ row C before ss ↔ ∃ b s d x, Stands text ss b s ∧ Stands Lexeme.part (s.lexemes C) d x ∧
      t = x.token (before ++ b ++ d) := by
  induction ss generalizing before with
  | nil =>
    constructor
    · exact fun h => absurd h List.not_mem_nil
    · rintro ⟨_, _, _, _, h, _⟩
      exact absurd h.mem List.not_mem_nil
  | cons s ss ih =>
    rw [row, List.mem_append, ih, Lexeme.mem_row_iff]
    constructor
    · rintro (⟨d, x, hx, rfl⟩ | ⟨b, s', d, x, hs', hx, rfl⟩)
      · exact ⟨[], s, d, x, .head, hx, by rw [List.append_nil]⟩
      · exact ⟨s.text ++ b, s', d, x, .tail hs', hx, by rw [List.append_assoc before]⟩
    · rintro ⟨b, s', d, x, hs', hx, rfl⟩
      obtain ⟨rfl, rfl⟩ | ⟨b, hb, rfl⟩ := stands_cons_iff.1 hs'
      · exact .inl ⟨d, x, hx, by rw [List.append_nil]⟩
      · exact .inr ⟨b, s', d, x, hb, hx, by rw [← List.append_assoc before]⟩

/-- The tokens of some segments stay between the ends of these. -/
theorem bounds_of_mem_row (h : t ∈ row C before ss) :
    before.length ≤ t.span.start.offset ∧
      t.span.stop.offset ≤ before.length + (ss.flatMap text).length := by
  obtain ⟨b, s, d, x, hs, hx, rfl⟩ := mem_row_iff.1 h
  have hle := hs.length_le
  have hxle := hx.length_le
  have hpart := length_flatMap_part_le (C := C) s
  rw [Lexeme.start_token, Lexeme.stop_token, List.length_append, List.length_append]
  omega

/-- **The tokens of some segments follow one another.** -/
theorem pairwise_row (ss : List Segment) (before : List Char) :
    (row C before ss).Pairwise fun t u => t.span.stop.offset ≤ u.span.start.offset := by
  induction ss generalizing before with
  | nil => exact .nil
  | cons s ss ih =>
    refine List.pairwise_append.2 ⟨Lexeme.pairwise_row _ _, ih _, fun t ht u hu => ?_⟩
    have htle := (Lexeme.bounds_of_mem_row ht).2
    have hule := (bounds_of_mem_row hu).1
    have hpart := length_flatMap_part_le (C := C) s
    rw [List.length_append] at hule
    omega

/-- What a token covers is in no comment. -/
theorem not_inComment_of_covers {o : Nat} (ht : t ∈ row C [] ss) (hto : t.Covers o) :
    ¬ InComment ss o := by
  intro ⟨b', s', hs', hcomment, hso'⟩
  obtain ⟨b, s, d, x, hs, hx, rfl⟩ := mem_row_iff.1 ht
  have hxle := hx.length_le
  have hpart := length_flatMap_part_le (C := C) s
  have hso : b.length ≤ o ∧ o < b.length + s.text.length := by
    rw [Lexeme.covers_token_iff, List.length_append, List.nil_append] at hto
    omega
  obtain ⟨rfl, rfl⟩ := hs'.unique hso' hs hso
  rw [isComment_of_mem_lexemes hx.mem] at hcomment
  exact nomatch hcomment

/-- What is in no comment is covered by a token. -/
theorem exists_covers_of_not_inComment {o : Nat} (ho : o < (ss.flatMap text).length)
    (hcomment : ¬ InComment ss o) : ∃ t ∈ row C [] ss, t.Covers o := by
  obtain ⟨b, s, hs, hso⟩ := exists_stands ho
  have hs' : s.isComment = false := by
    rcases h : s.isComment with _ | _
    · rfl
    · exact absurd ⟨b, s, hs, h, hso⟩ hcomment
  have hinside : o - b.length < ((s.lexemes C).flatMap Lexeme.part).length := by
    rw [flatMap_part_lexemes C hs']
    omega
  obtain ⟨d, x, hx, hxo⟩ := exists_stands hinside
  refine ⟨x.token ([] ++ b ++ d), mem_row_iff.2 ⟨b, s, d, x, hs, hx, rfl⟩, ?_⟩
  rw [Lexeme.covers_token_iff, List.length_append, List.nil_append]
  omega

/-- **A place is covered exactly when it is in no comment.** -/
theorem covers_iff_not_inComment {o : Nat} (ho : o < (ss.flatMap text).length) :
    (∃ t ∈ row C [] ss, t.Covers o) ↔ ¬ InComment ss o :=
  ⟨fun ⟨_, ht, hto⟩ => not_inComment_of_covers ht hto, exists_covers_of_not_inComment ho⟩

/-! ## Tokens and what they cover -/

/-- **A piece is printed as its instruction or as its one character.** -/
theorem printsAs_of_mem_pieces {run : List Char} {p : Piece} (h : p ∈ C.pieces run) :
    C.PrintsAs p.source p.output := by
  fun_induction Catalog.pieces C run with
  | case1 => exact absurd h List.not_mem_nil
  | case2 c run ih =>
    rcases List.mem_cons.1 h with rfl | h
    · rcases ha : C.longestAbbreviation? (c :: run) with _ | a
      · rw [Catalog.firstPiece_of_none ha]
        exact .inr ⟨c, rfl, rfl⟩
      · rw [Catalog.firstPiece_of_some ha]
        exact .inl ⟨a.instruction, (Catalog.longestAbbreviation?_spelling ha).2.2, rfl⟩
    · exact ih h

/-- A part of a word holds no delimiter, unless it begins with the lambda that leads the word. -/
theorem freeOfDelimiters_of_stands {run rest b d : List Char} {x : Lexeme}
    (hrun : Stands text ss b (.word run)) (hfits : (word run).Fits policy rest)
    (hx : Stands Lexeme.part ((word run).lexemes C) d x) :
    FreeOfDelimiters ss (b ++ d).length x.part := by
  obtain ⟨after, hafter⟩ := hx.text_eq
  rw [flatMap_part_lexemes C rfl] at hafter
  match hfits with
  | .word hc ht _ =>
    match d, hafter with
    | [], hafter =>
      rw [List.nil_append] at hafter
      rcases hpart : x.part with _ | ⟨e, part⟩
      · exact .inl fun _ h => nomatch h
      · rw [hpart, List.cons_append] at hafter
        obtain ⟨rfl, rfl⟩ := List.cons.inj hafter
        have hpart' : ∀ d ∈ part, isDelimiter d = false := fun d hd =>
          ht d (List.mem_append_left _ hd)
        rcases (opensWord_iff.1 hc).1 with rfl | hlead
        · exact .inr ⟨b, _, part, hrun, by rw [List.append_nil], rfl, hpart'⟩
        · refine .inl fun d hd => ?_
          rcases List.mem_cons.1 hd with rfl | hd
          · exact hlead
          · exact hpart' d hd
    | e :: d, hafter =>
      obtain ⟨-, rfl⟩ := List.cons.inj hafter
      exact .inl fun d hd => ht d (List.mem_append_right _ (List.mem_append_left _ hd))

/-- A lexeme stands between the text before its token and what comes after. -/
theorem exists_text_eq_of_stands {b d : List Char} {s : Segment} {x : Lexeme}
    (hs : Stands text ss b s) (hx : Stands Lexeme.part (s.lexemes C) d x) :
    ∃ after, ss.flatMap text = ([] ++ b ++ d) ++ (x.part ++ after) := by
  obtain ⟨after, hafter⟩ := hs.text_eq
  obtain ⟨tail, htail⟩ := hx.text_eq
  rw [flatMap_part_lexemes C (isComment_of_mem_lexemes hx.mem)] at htail
  refine ⟨tail ++ after, ?_⟩
  rw [hafter, htail]
  simp only [List.nil_append, List.append_assoc]

/-- The characters that a token covers are those of its lexeme. -/
theorem slice_token {b d : List Char} {s : Segment} {x : Lexeme} (hs : Stands text ss b s)
    (hx : Stands Lexeme.part (s.lexemes C) d x) :
    (x.token ([] ++ b ++ d)).span.slice (ss.flatMap text) = x.part := by
  obtain ⟨after, hafter⟩ := exists_text_eq_of_stands hs hx
  rw [hafter]
  exact Span.slice_over _ _ _

/-- **Every token agrees with what it covers.** -/
theorem agrees_of_mem_row (h : Factors policy cs ss) (ht : t ∈ row C [] ss) :
    t.Agrees C ss cs := by
  obtain ⟨b, s, d, x, hs, hx, rfl⟩ := mem_row_iff.1 ht
  obtain ⟨rest, hfits⟩ := exists_fits_of_mem h hs.mem
  have hslice := slice_token hs hx
  rw [h.text_eq] at hslice
  match s with
  | comment _ _ => exact nomatch hx.mem
  | blank c =>
    obtain rfl := List.mem_singleton.1 hx.mem
    match hfits with
    | .blank hc => exact ⟨rfl, c, hc, hslice⟩
  | string _ _ | char _ | paren _ | bracket _ | number _ =>
    obtain rfl := List.mem_singleton.1 hx.mem
    exact congrArg String.ofList hslice.symm
  | word run =>
    obtain ⟨p, hp, rfl⟩ := List.mem_map.1 hx.mem
    change FreeOfDelimiters ss ([] ++ b ++ d).length _ ∧ C.PrintsAs _ p.output
    rw [hslice]
    exact ⟨freeOfDelimiters_of_stands hs hfits hx, printsAs_of_mem_pieces hp⟩

end Segment

/-- **The tokens of a source cover it once, comments apart, and agree with what they cover.** -/
theorem tokenize_covers {C : Catalog} {policy : StringPolicy} {source : String} {ts : List Token}
    (h : tokenize C policy source = .ok ts) :
    ∃ ss, Factors policy source.toList ss ∧ Token.Covering C ss source.toList ts := by
  obtain ⟨-, ss, hss, rfl⟩ := tokenize_eq_row_iff.1 h
  have hlen : (ss.flatMap Segment.text).length = source.toList.length :=
    congrArg List.length hss.text_eq
  refine ⟨ss, hss, fun t ht => ?_, fun t ht => ?_, Segment.pairwise_row ss [], fun o ho => ?_,
    fun t ht => Segment.agrees_of_mem_row hss ht⟩
  · obtain ⟨b, s, d, x, hs, hx, rfl⟩ := Segment.mem_row_iff.1 ht
    obtain ⟨rest, hfits⟩ := Segment.exists_fits_of_mem hss hs.mem
    have hpos := List.length_pos_iff.2
      (Segment.part_ne_nil_of_mem_lexemes hfits.text_ne_nil hx.mem)
    rw [Lexeme.start_token, Lexeme.stop_token]
    exact Nat.lt_add_of_pos_right hpos
  · have hle := (Segment.bounds_of_mem_row ht).2
    rwa [List.length_nil, Nat.zero_add, hlen] at hle
  · exact Segment.covers_iff_not_inComment (hlen.symm ▸ ho)

/-- A glyph of no characters, an empty alias, an alias of two bytes a character, and comments before
and behind. -/
theorem tokenize_covers_comments :
    ∃ ss, Factors .extendToEnd "#\n#a\nλαβx@\n#".toList ss ∧
      Token.Covering ⟨[⟨"", ["x", ""]⟩, ⟨"§", ["αβ"]⟩]⟩ ss "#\n#a\nλαβx@\n#".toList
        [⟨.operator, "λ", ⟨⟨5, 2, 0⟩, ⟨6, 2, 1⟩⟩⟩, ⟨.operator, "§", ⟨⟨6, 2, 1⟩, ⟨8, 2, 3⟩⟩⟩,
          ⟨.operator, "", ⟨⟨8, 2, 3⟩, ⟨9, 2, 4⟩⟩⟩, ⟨.char, "@\n", ⟨⟨9, 2, 4⟩, ⟨11, 3, 0⟩⟩⟩] :=
  tokenize_covers (by decide +kernel)

end Mnemonic
