import Mnemonic.Proofs.Stream

/-!
# Proofs/Agreement — catalogs that cut the words of a source alike

A lexer looks into its catalog for the words that it reads and for nothing else.  So two catalogs
that cut these words alike are read alike, item by item (`Lexer.drain_withCatalog`), and a source
has the same tokens, or the same error, under both (`tokenize_congr`).  No length is assumed: a
source that a word cannot count fails alike as well.
-/

namespace Mnemonic

open Segment (Leads)

/-- Catalogs that cut off the same piece of whatever is left of a run cut it alike. -/
theorem Catalog.pieces_congr {C D : Catalog} {run : List Char}
    (h : ∀ c cs, c :: cs <:+ run → D.firstPiece c cs = C.firstPiece c cs) :
    D.pieces run = C.pieces run := by
  fun_induction pieces C run with
  | case1 => rw [pieces]
  | case2 c cs ih =>
    rw [pieces, h c cs (List.suffix_refl _),
      ih fun d ds hds => h d ds (hds.trans (List.drop_suffix _ _))]

/-- Whether two catalogs cut the words at the start of a text alike. -/
def Catalog.CutAlike (C D : Catalog) (policy : StringPolicy) (cs : List Char) : Prop :=
  ∀ ss left run, Leads policy cs ss left → Segment.word run ∈ ss → D.pieces run = C.pieces run

/-- What is alike from the start is alike behind the first segment. -/
theorem Catalog.CutAlike.rest {C D : Catalog} {policy : StringPolicy} {s : Segment}
    {rest : List Char} (h : C.CutAlike D policy (s.text ++ rest)) (hs : s.Fits policy rest) :
    C.CutAlike D policy rest := fun ss left run hleads hrun =>
  h (s :: ss) left run (.cons hs hleads) (List.mem_cons_of_mem s hrun)

/-- Where nothing is left to read, no word is cut otherwise. -/
theorem Catalog.CutAlike.nil {C D : Catalog} {policy : StringPolicy} : C.CutAlike D policy [] := by
  intro ss left run hleads hrun
  have hnil := (List.append_eq_nil_iff.1 hleads.text_eq).1
  exact absurd (List.flatMap_eq_nil_iff.1 hnil _ hrun) (hleads.text_ne_nil_of_mem hrun)

/-- A segment whose word is cut alike stands for the same tokens. -/
theorem Segment.tokens_congr {C D : Catalog} {s : Segment}
    (h : ∀ run, s = word run → D.pieces run = C.pieces run) (span : Span) :
    s.tokens D span = s.tokens C span := by
  match s with
  | word run => exact congrArg (Piece.place span.start) (h run rfl)
  | blank _ | comment _ _ | string _ _ | char _ | paren _ | bracket _ | number _ => rfl

namespace Lexer

variable {D : Catalog} {l l' : Lexer} {c : Char} {cs : List Char}

/-- The lexer `l` with another catalog. -/
def withCatalog (D : Catalog) (l : Lexer) : Lexer := { l with catalog := D }

/-- Whether the catalog `D` cuts the words that `l` has not read as its own catalog does. -/
def CutAlike (D : Catalog) (l : Lexer) : Prop := l.catalog.CutAlike D l.policy l.rest

/-! ## One segment -/

/-- What a segment that has been read leaves as it was, and how much of the text it leaves. -/
theorem readSegment_frame (h : l.readSegment c cs = .ok l') :
    l'.catalog = l.catalog ∧ l'.policy = l.policy ∧
      ∃ s : Segment, s.text ++ l'.rest = c :: cs ∧ s.Fits l.policy l'.rest := by
  obtain ⟨⟨s, rest⟩, hread, h⟩ := bind_eq_ok_iff.1 h
  obtain ⟨stop, _, h⟩ := bind_eq_ok_iff.1 h
  obtain ⟨ts, _, h⟩ := bind_eq_ok_iff.1 h
  obtain rfl := Except.ok.inj h
  exact ⟨rfl, rfl, s, Segment.of_read (mapError_eq_ok_iff.1 hread)⟩

/-- Reading a segment keeps two catalogs alike. -/
theorem CutAlike.readSegment (halike : l.CutAlike D) (hr : l.rest = c :: cs)
    (h : l.readSegment c cs = .ok l') : l'.CutAlike D := by
  obtain ⟨hcatalog, hpolicy, s, htext, hs⟩ := readSegment_frame h
  rw [CutAlike, hr, ← htext] at halike
  rw [CutAlike, hcatalog, hpolicy]
  exact halike.rest hs

/-- So does an error. -/
theorem CutAlike.fail (halike : l.CutAlike D) (e : LexError) : (l.fail e).CutAlike D := by
  unfold Lexer.fail
  split
  · exact Catalog.CutAlike.nil
  · exact halike

theorem fail_withCatalog (l : Lexer) (e : LexError) :
    (l.withCatalog D).fail e = (l.fail e).withCatalog D := by
  unfold fail withCatalog
  dsimp only
  split <;> rfl

/-- **A segment is read alike.** -/
theorem readSegment_withCatalog (halike : l.CutAlike D) (hr : l.rest = c :: cs) :
    (l.withCatalog D).readSegment c cs = (l.readSegment c cs).map (withCatalog D) := by
  rw [Lexer.readSegment, Lexer.readSegment]
  change ((Segment.read l.policy c cs).mapError (LexError.unterminated l.position) >>= _) =
    ((Segment.read l.policy c cs).mapError (LexError.unterminated l.position) >>= _).map _
  rcases hread : Segment.read l.policy c cs with u | ⟨s, rest⟩
  · rfl
  change ((l.position.walk s.text).mapError LexError.overflow >>= _) =
    ((l.position.walk s.text).mapError LexError.overflow >>= _).map _
  rcases l.position.walk s.text with cause | stop
  · rfl
  change ((s.tokens D ⟨l.position, stop⟩).mapError LexError.overflow >>= _) =
    ((s.tokens l.catalog ⟨l.position, stop⟩).mapError LexError.overflow >>= _).map _
  obtain ⟨htext, hs⟩ := Segment.of_read hread
  have hword : ∀ run, s = .word run → D.pieces run = l.catalog.pieces run := by
    rintro run rfl
    refine halike [.word run] rest run ?_ (List.mem_singleton_self _)
    rw [hr, ← htext]
    exact .cons hs .nil
  rw [Segment.tokens_congr hword]
  rcases s.tokens l.catalog ⟨l.position, stop⟩ with cause | ts <;> rfl

/-! ## Items -/

/-- **The next item is the same, and the catalogs stay alike behind it.** -/
theorem next_withCatalog (halike : l.CutAlike D) :
    (l.withCatalog D).next = (l.next.1, l.next.2.withCatalog D) ∧ l.next.2.CutAlike D := by
  fun_induction next l with
  | case1 l hf => exact ⟨next_of_failed hf, halike⟩
  | case2 l hf t ts hp => exact ⟨next_of_pending (Bool.eq_false_iff.2 hf) hp, halike⟩
  | case3 l hf hp hr => exact ⟨next_of_rest_nil (Bool.eq_false_iff.2 hf) hp hr, halike⟩
  | case4 l hf hp c cs hr e hs =>
    have hread := readSegment_withCatalog halike hr
    rw [hs] at hread
    refine ⟨?_, halike.fail e⟩
    rw [next_of_rest_cons (l := l.withCatalog D) (Bool.eq_false_iff.2 hf) hp hr, hread]
    exact congrArg (Prod.mk _) (fail_withCatalog l e)
  | case5 l hf hp c cs hr l₁ hs ih =>
    have hread := readSegment_withCatalog halike hr
    rw [hs] at hread
    obtain ⟨hnext, hafter⟩ := ih (halike.readSegment hr hs)
    refine ⟨?_, hafter⟩
    rw [next_of_rest_cons (l := l.withCatalog D) (Bool.eq_false_iff.2 hf) hp hr, hread]
    exact hnext

/-- **All items are the same.** -/
theorem drain_withCatalog (halike : l.CutAlike D) : (l.withCatalog D).drain.1 = l.drain.1 := by
  fun_induction drain l with
  | case1 l l' h =>
    obtain ⟨hnext, -⟩ := next_withCatalog halike
    rw [h] at hnext
    rw [drain_of_next_none hnext]
  | case2 l l' i h is l'' hd ih =>
    obtain ⟨hnext, hafter⟩ := next_withCatalog halike
    rw [h] at hnext hafter
    rw [drain_of_next_some hnext, ih hafter, hd]

end Lexer

/-- **A source whose words are cut alike is read alike**, whatever its length. -/
theorem tokenize_congr {C D : Catalog} {policy : StringPolicy} {source : String}
    (h : C.CutAlike D policy source.toList) :
    tokenize D policy source = tokenize C policy source := by
  have hdrain := Lexer.drain_withCatalog (l := Lexer.ofSource C policy source) h
  rw [tokenize, tokenize, Lexer.readAll_eq_gather, Lexer.readAll_eq_gather, ← hdrain]
  rfl

end Mnemonic
