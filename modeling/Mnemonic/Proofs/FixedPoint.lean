import Mnemonic.Proofs.Shown
import Mnemonic.Proofs.StandardGlyphs
import Mnemonic.Proofs.Stream

/-!
# Proofs/FixedPoint — a translation is its own translation

What a source is translated to is made up of segments again: those of the source, with blanks
replaced by spaces, words by what comes out of them, and comments left out (`factors_settle`).
Since the glyphs of the built-in catalog can be read back, translating once more changes nothing
(`translate_translate`).  Only where a comment kept two numbers or words apart do these run into one
another, hence the hypothesis.
-/

namespace Mnemonic

open Segment (Factors)

namespace Segment

/-! ## What segments are translated to -/

/-- The text that a segment is translated to. -/
def printed (C : Catalog) (s : Segment) : List Char :=
  match s with
  | blank _ => [' ']
  | comment _ _ => []
  | word run => C.printed run
  | string _ _ | char _ | paren _ | bracket _ | number _ => s.text

/-- The segment that the translation of a segment is; comments leave none. -/
def settle (C : Catalog) (s : Segment) : Option Segment :=
  match s with
  | blank _ => some (blank ' ')
  | comment _ _ => none
  | word run => some (word (C.printed run))
  | string _ _ | char _ | paren _ | bracket _ | number _ => some s

/-- A number or a word: a segment that another one of these may run into. -/
def isSolid : Segment → Bool
  | number _ | word _ => true
  | blank _ | comment _ _ | string _ _ | char _ | paren _ | bracket _ => false

/-- Whether somewhere nothing but comments stands between two numbers or words. -/
def CommentBetween (ss : List Segment) : Prop :=
  ∃ s gap t, s :: (gap ++ [t]) <:+: ss ∧ gap ≠ [] ∧ (∀ g ∈ gap, g.isComment = true) ∧
    s.isSolid = true ∧ t.isSolid = true

variable {C : Catalog} {policy : StringPolicy} {cs : List Char} {ss : List Segment}

/-! ## Tokens of a translation -/

/-- The lexemes of a segment spell its translation. -/
theorem flatMap_shown_lexemes (s : Segment) :
    ((s.lexemes C).map Lexeme.shown).flatMap (·.2.toList) = s.printed C := by
  match s with
  | comment _ _ => rfl
  | blank _ =>
    have hspace : " ".toList = [' '] := by decide
    exact (List.append_nil _).trans hspace
  | string _ _ | char _ | paren _ | bracket _ | number _ =>
    exact (List.append_nil _).trans String.toList_ofList
  | word run =>
    change (((C.pieces run).map Lexeme.operator).map Lexeme.shown).flatMap _ = C.printed run
    rw [List.map_map, List.flatMap_map]
    rfl

/-- **The tokens of segments spell their translation.** -/
theorem toList_assemble_row (ss : List Segment) (before : List Char) :
    (assemble (row C before ss)).toList = ss.flatMap (printed C) := by
  rw [assemble_eq_join_shown, String.toList_join, map_shown_row, List.flatMap_map,
    List.flatMap_assoc]
  exact congrArg (fun f => ss.flatMap f) (funext flatMap_shown_lexemes)

/-- Whether a token shows something else than an operator. -/
def notOperator (x : Token.Kind × String) : Bool := x.1 != .operator

/-- The pieces of a word all show operators. -/
theorem filter_notOperator_word (run : List Char) :
    (((word run).lexemes C).map Lexeme.shown).filter notOperator = [] := by
  refine List.filter_eq_nil_iff.2 fun y hy => ?_
  obtain ⟨x, hx, rfl⟩ := List.mem_map.1 hy
  obtain ⟨p, -, rfl⟩ := List.mem_map.1 hx
  exact Bool.false_ne_true

/-- **Operators apart, the segments of a translation show what those of the source do.** -/
theorem filter_notOperator_settle (ss : List Segment) :
    ((ss.filterMap (settle C)).flatMap fun s => (s.lexemes C).map Lexeme.shown).filter notOperator =
      (ss.flatMap fun s => (s.lexemes C).map Lexeme.shown).filter notOperator := by
  induction ss with
  | nil => rfl
  | cons s ss ih =>
    rw [List.flatMap_cons, List.filter_append, ← ih]
    match s with
    | comment _ _ => rfl
    | blank _ | string _ _ | char _ | paren _ | bracket _ | number _ => rfl
    | word run =>
      have hsettle : (word run).settle C = some (word (C.printed run)) := rfl
      rw [List.filterMap_cons_some hsettle, List.flatMap_cons, List.filter_append,
        filter_notOperator_word, filter_notOperator_word]

/-! ## Segments of a translation -/

/-- Where the translation of a segment begins, whatever the segment ended before ends there too. -/
theorem exists_head?_printed (hC : C.Settled) {s : Segment} {rest : List Char}
    (hs : s.Fits policy rest) (hcomment : s.isComment = false) :
    ∃ c ∈ s.text.head?, ∃ d ∈ (s.printed C).head?,
      (c.isDigit = false → d.isDigit = false) ∧ (isDelimiter c = true → isDelimiter d = true) := by
  match hs with
  | .blank _ => exact ⟨_, rfl, ' ', rfl, fun _ => by decide, fun _ => by decide⟩
  | .string _ | .lastString _ _ => exact ⟨'"', rfl, '"', rfl, id, id⟩
  | .char => exact ⟨'@', rfl, '@', rfl, id, id⟩
  | .paren _ | .bracket _ => exact ⟨_, rfl, _, rfl, id, id⟩
  | .number hne _ _ =>
    obtain ⟨c, digits, rfl⟩ := List.exists_cons_of_ne_nil hne
    exact ⟨c, rfl, c, rfl, id, id⟩
  | @Fits.word _ c tail _ hc ht _ =>
    obtain ⟨d, out, hout, hd, -, hlambda⟩ :=
      (Catalog.prints_printed C (c :: tail)).exists_word hC hc ht
    refine ⟨c, rfl, d, ?_, fun _ => (opensWord_iff.1 hd).2, fun hdelimiter => ?_⟩
    · change d ∈ (C.printed (c :: tail)).head?
      rw [hout]
      rfl
    · rcases (opensWord_iff.1 hc).1 with hlead | hlead
      · rw [hlambda hlead]
        decide
      · exact Bool.noConfusion (hdelimiter.symm.trans hlead)

/-- What begins the translation of a segment begins it with whatever segments follow. -/
theorem mem_head?_flatMap_printed {s : Segment} {d : Char} (h : d ∈ (s.printed C).head?)
    (ss : List Segment) : d ∈ ((s :: ss).flatMap (printed C)).head? :=
  List.mem_head?_append_of_mem_head? h

/-- A segment that is no number, word or comment begins with a delimiter, which is no digit. -/
theorem delimiter_of_not_isSolid {s : Segment} {rest : List Char} (hs : s.Fits policy rest)
    (hcomment : s.isComment = false) (hsolid : s.isSolid = false) :
    ∀ c ∈ s.text.head?, isDelimiter c = true ∧ c.isDigit = false := by
  intro c hc
  match hs with
  | .blank hblank =>
    obtain rfl := Option.some.inj hc
    refine ⟨?_, ?_⟩
    · rw [isDelimiter, hblank, Bool.true_or]
    · rcases hdigit : Char.isDigit _ with _ | _
      · rfl
      · exact Bool.noConfusion (hblank.symm.trans (isBlank_eq_false_of_isDigit hdigit))
  | .string _ | .lastString _ _ | .char =>
    obtain rfl := Option.some.inj hc
    decide
  | .paren hparen | .bracket hparen =>
    obtain rfl := Option.some.inj hc
    rcases hparen with rfl | rfl <;> decide

/-- What comments are followed by, if it is no number or word, begins with a delimiter. -/
theorem delimiter_of_comments (hC : C.Settled) (h : Factors policy cs ss)
    (hfirst : ∀ s ∈ (ss.dropWhile isComment).head?, s.isSolid = false) :
    ∀ d ∈ (ss.flatMap (printed C)).head?, isDelimiter d = true ∧ d.isDigit = false := by
  induction h with
  | nil => exact fun d hd => nomatch hd
  | @cons s rest ss hs _ ih =>
    rcases hcomment : s.isComment with _ | _
    · rw [List.dropWhile_cons_of_neg (by simp [hcomment])] at hfirst
      obtain ⟨c, hc, d, hd, hdigit, hdelimiter⟩ := exists_head?_printed hC hs hcomment
      obtain ⟨hcdelimiter, hcdigit⟩ :=
        delimiter_of_not_isSolid hs hcomment (hfirst s rfl) c hc
      intro e he
      obtain rfl := Option.mem_unique he (mem_head?_flatMap_printed hd ss)
      exact ⟨hdelimiter hcdelimiter, hdigit hcdigit⟩
    · match s, hcomment with
      | comment _ _, _ => exact ih hfirst

/-- Without comments none stands between anything. -/
theorem not_commentBetween_of_forall (h : ∀ s ∈ ss, s.isComment = false) :
    ¬ CommentBetween ss := by
  intro ⟨s, gap, t, hwithin, hne, hcomments, _⟩
  obtain ⟨g, hg⟩ := List.exists_mem_of_ne_nil gap hne
  have hmem : g ∈ ss :=
    hwithin.subset (List.mem_cons_of_mem s (List.mem_append_left [t] hg))
  exact Bool.noConfusion ((h g hmem).symm.trans (hcomments g hg))

/-- A text without number signs has no comments. -/
theorem isComment_eq_false_of_notMem (h : Factors policy cs ss) (hcs : '#' ∉ cs) :
    ∀ s ∈ ss, s.isComment = false := by
  intro s hs
  match s with
  | comment body closed =>
    have hsign : '#' ∈ (comment body closed).text := List.mem_cons_self
    exact absurd (h.text_eq ▸ List.mem_flatMap.2 ⟨_, hs, hsign⟩) hcs
  | blank _ | string _ _ | char _ | paren _ | bracket _ | number _ | word _ => rfl

/-- After a number or a word and a comment comes no number or word. -/
theorem not_isSolid_of_not_commentBetween {s t : Segment} (h : ¬ CommentBetween (s :: t :: ss))
    (hs : s.isSolid = true) (ht : t.isComment = true) :
    ∀ u ∈ ((t :: ss).dropWhile isComment).head?, u.isSolid = false := by
  intro u hu
  rw [List.dropWhile_cons_of_pos ht] at hu
  refine Bool.eq_false_iff.2 fun hsolid => h ?_
  obtain ⟨tt, htt⟩ := List.head?_eq_some_iff.1 hu
  refine ⟨s, t :: ss.takeWhile isComment, u, ?_, List.cons_ne_nil _ _, ?_, hs, hsolid⟩
  · refine ⟨[], tt, ?_⟩
    have hsplit := List.takeWhile_append_dropWhile (p := isComment) (l := ss)
    rw [htt] at hsplit
    simp only [List.nil_append, List.cons_append, List.append_assoc, hsplit]
  · intro g hg
    rcases List.mem_cons.1 hg with rfl | hg
    · exact ht
    · exact List.all_eq_true.1 List.all_takeWhile g hg

/-- **A number or a word of a source ends in the translation too**, where no comment stands between
it and another one. -/
theorem exists_head?_of_solid (hC : C.Settled) {s : Segment} (hs : s.isSolid = true)
    (h : Factors policy cs ss) (hgap : ¬ CommentBetween (s :: ss)) {d : Char}
    (hd : d ∈ (ss.flatMap (printed C)).head?) :
    ∃ c, (c ∈ cs.head? ∨ isDelimiter c = true ∧ c.isDigit = false) ∧
      (c.isDigit = false → d.isDigit = false) ∧ (isDelimiter c = true → isDelimiter d = true) := by
  match h with
  | .nil => exact nomatch hd
  | @Factors.cons _ t rest ss ht htt =>
    rcases hcomment : t.isComment with _ | _
    · obtain ⟨c, hc, e, he, hends⟩ := exists_head?_printed hC ht hcomment
      obtain rfl := Option.mem_unique hd (mem_head?_flatMap_printed he ss)
      exact ⟨c, .inl (List.mem_head?_append_of_mem_head? hc), hends⟩
    · have hdelimiter := delimiter_of_comments hC (.cons ht htt)
        (not_isSolid_of_not_commentBetween hgap hs hcomment) d hd
      exact ⟨d, .inr hdelimiter, id, id⟩

/-- **What a segment is translated to is a segment in the translation.** -/
theorem fits_settle (hC : C.Settled) {s t : Segment} {rest : List Char} (hs : s.Fits policy rest)
    (h : Factors policy rest ss) (hgap : ¬ CommentBetween (s :: ss)) (ht : s.settle C = some t) :
    t.text = s.printed C ∧ t.Fits policy (ss.flatMap (printed C)) := by
  match hs with
  | .blank _ =>
    obtain rfl := Option.some.inj ht
    exact ⟨rfl, .blank (by decide)⟩
  | .string hb =>
    obtain rfl := Option.some.inj ht
    exact ⟨rfl, .string hb⟩
  | .lastString hp hb =>
    obtain rfl := Option.some.inj ht
    obtain rfl := h.unique .nil
    exact ⟨rfl, .lastString hp hb⟩
  | .char =>
    obtain rfl := Option.some.inj ht
    exact ⟨rfl, .char⟩
  | .paren hc =>
    obtain rfl := Option.some.inj ht
    exact ⟨rfl, .paren hc⟩
  | .bracket hc =>
    obtain rfl := Option.some.inj ht
    exact ⟨rfl, .bracket hc⟩
  | .number hne hdigits hr =>
    obtain rfl := Option.some.inj ht
    refine ⟨rfl, .number hne hdigits fun d hd => ?_⟩
    obtain ⟨c, hc, hdigit, -⟩ := exists_head?_of_solid hC rfl h hgap hd
    exact hdigit (hc.elim (hr c) And.right)
  | @Fits.word _ c tail _ hc htail hr =>
    obtain rfl := Option.some.inj ht
    obtain ⟨e, out, hout, he, hplain, -⟩ :=
      (Catalog.prints_printed C (c :: tail)).exists_word hC hc htail
    refine ⟨rfl, ?_⟩
    rw [hout]
    refine .word he hplain fun d hd => ?_
    obtain ⟨c', hc', -, hdelimiter⟩ := exists_head?_of_solid hC rfl h hgap hd
    exact hdelimiter (hc'.elim (hr c') And.left)

/-- **The segments of a source are translated to the segments of its translation.** -/
theorem factors_settle (hC : C.Settled) (h : Factors policy cs ss) (hgap : ¬ CommentBetween ss) :
    Factors policy (ss.flatMap (printed C)) (ss.filterMap (settle C)) := by
  induction h with
  | nil => exact .nil
  | @cons s rest ss hs hss ih =>
    have hrest : Factors policy (ss.flatMap (printed C)) (ss.filterMap (settle C)) := by
      refine ih fun ⟨s', gap, t, hwithin, hgap'⟩ => hgap ⟨s', gap, t, ?_, hgap'⟩
      exact hwithin.trans (List.suffix_cons s ss).isInfix
    rw [List.flatMap_cons]
    rcases ht : s.settle C with _ | t
    · match s, ht with
      | comment _ _, _ => exact hrest
    · obtain ⟨htext, hfits⟩ := fits_settle hC hs hss hgap ht
      rw [List.filterMap_cons_some ht, ← htext]
      exact .cons hfits hrest

/-- Translating the segments of a translation changes nothing. -/
theorem flatMap_printed_settle (hC : C.Settled) (ss : List Segment) :
    (ss.filterMap (settle C)).flatMap (printed C) = ss.flatMap (printed C) := by
  induction ss with
  | nil => rfl
  | cons s ss ih =>
    rw [List.flatMap_cons, ← ih]
    match s with
    | comment _ _ => rfl
    | blank _ | string _ _ | char _ | paren _ | bracket _ | number _ => rfl
    | word run =>
      have hsettle : (word run).settle C = some (word (C.printed run)) := rfl
      rw [List.filterMap_cons_some hsettle, List.flatMap_cons]
      exact congrArg (· ++ _) (Catalog.printed_printed hC run)

end Segment

/-! ## Translations -/

theorem translate_eq_ok_iff {policy : StringPolicy} {source out : String} :
    translate policy source = .ok out ↔
      ∃ ts, tokenize .standard policy source = .ok ts ∧ assemble ts = out :=
  map_eq_ok_iff

/-- **A translation is its own translation, and holds the tokens of the source, operators
apart.** -/
theorem translate_translate {policy : StringPolicy} {source out : String}
    (h : translate policy source = .ok out) (hlen : out.length ≤ wordMax)
    (hgap : ∀ ss, Factors policy source.toList ss → ¬ Segment.CommentBetween ss) :
    translate policy out = .ok out ∧
      ∃ ts us, tokenize .standard policy source = .ok ts ∧ tokenize .standard policy out = .ok us ∧
        (us.map Token.shown).filter (·.1 != .operator) =
          (ts.map Token.shown).filter (·.1 != .operator) := by
  obtain ⟨ts, htokens, rfl⟩ := translate_eq_ok_iff.1 h
  obtain ⟨-, ss, hss, rfl⟩ := tokenize_eq_row_iff.1 htokens
  have hout : (assemble (Segment.row .standard [] ss)).toList =
      ss.flatMap (Segment.printed .standard) :=
    Segment.toList_assemble_row ss []
  have hsettle := Segment.factors_settle Catalog.settled_standard hss (hgap ss hss)
  rw [← hout] at hsettle
  have hagain : tokenize .standard policy (assemble (Segment.row .standard [] ss)) =
      .ok (Segment.row .standard [] (ss.filterMap (Segment.settle .standard))) :=
    tokenize_of_factors hlen hsettle
  refine ⟨translate_eq_ok_iff.2 ⟨_, hagain, ?_⟩, _, _, htokens, hagain, ?_⟩
  · refine String.toList_inj.1 ?_
    rw [Segment.toList_assemble_row, Segment.toList_assemble_row,
      Segment.flatMap_printed_settle Catalog.settled_standard]
  · rw [Segment.map_shown_row, Segment.map_shown_row]
    exact Segment.filter_notOperator_settle ss

theorem translate_translate_fold :
    translate .reject "xfold3z 12gte\t\"add\n\"λ@(sortas" = .ok "⊻fold3z 12>= \"add\n\"λ@(⍏" ∧
      translate .reject "⊻fold3z 12>= \"add\n\"λ@(⍏" = .ok "⊻fold3z 12>= \"add\n\"λ@(⍏" := by
  have h : translate .reject "xfold3z 12gte\t\"add\n\"λ@(sortas" =
      .ok "⊻fold3z 12>= \"add\n\"λ@(⍏" := by decide +kernel
  refine ⟨h, (translate_translate h (by decide +kernel) fun ss hss => ?_).1⟩
  exact Segment.not_commentBetween_of_forall
    (Segment.isComment_eq_false_of_notMem hss (by decide +kernel))

/-- Letters that a comment kept apart come together in the translation, and name something then. -/
example : translate .reject "r#\ned" = .ok "red" ∧ translate .reject "red" = .ok "/" := by
  decide +kernel

end Mnemonic
