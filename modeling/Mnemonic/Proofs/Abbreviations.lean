import Mnemonic.Proofs.LongestMatch
import Mnemonic.Proofs.Unfinished

/-!
# Proofs/Abbreviations — every abbreviation of an instruction means it, wherever it stands

`C.Spells w i` says that `w` can stand in a source as one word and that it names the row `i`.  Such
a word is cut as one piece, since no part of it is longer than the whole (`Spells.pieces_eq`).
Between a complete text that does not end in a word and a text that goes on with a delimiter it is
then one operator, whichever of the words for `i` it is (`tokenize_abbreviation`).
-/

namespace Mnemonic

open Segment (Leads Unreadable EndsInWord)

namespace Catalog

/-- Whether `w` is one word where a word can stand, and names the row `i`. -/
structure Spells (C : Catalog) (w : String) (i : Instruction) : Prop where
  ne_empty : w ≠ ""
  not_delimiter : ∀ c ∈ w.toList, isDelimiter c = false
  not_digit : ∀ c ∈ w.toList.head?, c.isDigit = false
  resolve_eq : C.resolve w = .unique i

/-- Character by character, this can be tested. -/
instance (C : Catalog) (w : String) (i : Instruction) : Decidable (C.Spells w i) :=
  decidable_of_iff (w ≠ "" ∧ (w.toList.all (!isDelimiter ·)) = true ∧
      (w.toList.head?.all (!·.isDigit)) = true ∧ C.resolve w = .unique i) <| by
    simp only [List.all_eq_true, Option.all_eq_true, Bool.not_eq_true']
    exact ⟨fun ⟨hne, hdelimiter, hdigit, hres⟩ => ⟨hne, hdelimiter, hdigit, hres⟩,
      fun ⟨hne, hdelimiter, hdigit, hres⟩ => ⟨hne, hdelimiter, hdigit, hres⟩⟩

namespace Spells

variable {C : Catalog} {policy : StringPolicy} {w a b : String} {i : Instruction}
  {ts us : List Token}

/-! ## The word by itself -/

theorem toList_ne_nil (h : C.Spells w i) : w.toList ≠ [] :=
  fun hnil => h.ne_empty (String.toList_eq_nil_iff.1 hnil)

/-- It is a word before a delimiter. -/
theorem fits {rest : List Char} (h : C.Spells w i)
    (hrest : ∀ c ∈ rest.head?, isDelimiter c = true) :
    (Segment.word w.toList).Fits policy rest := by
  obtain ⟨c, cs, hcs⟩ := List.exists_cons_of_ne_nil h.toList_ne_nil
  have hdelimiter := h.not_delimiter
  have hdigit := h.not_digit
  rw [hcs] at hdelimiter hdigit ⊢
  exact .word (Segment.opensWord_iff.2 ⟨.inr (hdelimiter c List.mem_cons_self), hdigit c rfl⟩)
    (fun d hd => hdelimiter d (List.mem_cons_of_mem c hd)) hrest

/-- **It is cut as one piece**: nothing that starts it is longer. -/
theorem pieces_eq (h : C.Spells w i) : C.pieces w.toList = [⟨w.toList, i.glyph⟩] := by
  have hnames : C.Names w.toList i := by
    rw [Names, String.ofList_toList]
    exact h.resolve_eq
  have hfirst : C.longestAbbreviation? (w.toList ++ []) = some ⟨w.toList, i⟩ := by
    rw [List.append_nil]
    exact longestAbbreviation?_eq_some (List.prefix_refl _) h.toList_ne_nil hnames
      fun v _ hwv hvw _ => hvw.eq_of_length_le hwv.length_le
  have hpieces := pieces_of_some hfirst
  rwa [List.append_nil, pieces] at hpieces

/-- It shows the glyph of what it names. -/
theorem map_shown_lexemes (h : C.Spells w i) :
    ((Segment.word w.toList).lexemes C).map Lexeme.shown = [(.operator, i.glyph)] := by
  rw [Segment.lexemes, h.pieces_eq]
  rfl

/-! ## The word in a text -/

/-- **Between its neighbours it is one segment**, which leaves theirs as they are. -/
theorem exists_leads (hw : C.Spells w i) (ha : Complete C a ts) (hword : ¬ EndsInWord a.toList)
    (hb : ∀ c ∈ b.toList.head?, isDelimiter c = true) :
    ∃ ss, ts = Segment.row C [] ss ∧ ∀ {policy tt left}, Leads policy b.toList tt left →
      Leads policy (a ++ w ++ b).toList (ss ++ .word w.toList :: tt) left := by
  have hhead : ∀ c ∈ (w.toList ++ b.toList).head?, c.isDigit = false := by
    obtain ⟨d, ds, hds⟩ := List.exists_cons_of_ne_nil hw.toList_ne_nil
    have hdigit := hw.not_digit
    rw [hds] at hdigit ⊢
    exact hdigit
  obtain ⟨ss, hss, -, hts⟩ := ha.exists_leads fun c hc => ⟨hhead c hc, fun h => absurd h hword⟩
  refine ⟨ss, hts, fun {policy _ _} htt => ?_⟩
  rw [String.toList_append, String.toList_append, List.append_assoc]
  exact (hss policy).append (.cons (hw.fits hb) htt)

theorem exists_tokenize_eq_ok (hw : C.Spells w i) (hlen : (a ++ w ++ b).length ≤ wordMax)
    (ha : Complete C a ts) (hword : ¬ EndsInWord a.toList)
    (hb : ∀ c ∈ b.toList.head?, isDelimiter c = true) (hus : tokenize C policy b = .ok us) :
    ∃ vs, tokenize C policy (a ++ w ++ b) = .ok vs ∧
      vs.map Token.shown =
        ts.map Token.shown ++ (.operator, i.glyph) :: us.map Token.shown := by
  obtain ⟨-, tt, htt, rfl⟩ := tokenize_eq_row_iff.1 hus
  obtain ⟨ss, rfl, hleads⟩ := hw.exists_leads ha hword hb
  have hall := hleads (Segment.factors_iff_leads.1 htt)
  refine ⟨_, tokenize_of_factors hlen (Segment.factors_iff_leads.2 hall), ?_⟩
  rw [Segment.map_shown_row, Segment.map_shown_row, Segment.map_shown_row, List.flatMap_append,
    List.flatMap_cons, hw.map_shown_lexemes]
  rfl

theorem exists_tokenize_eq_unfinished {tt : List Segment} {left : List Char} {u : Unterminated}
    (hw : C.Spells w i) (hlen : (a ++ w ++ b).length ≤ wordMax) (ha : Complete C a ts)
    (hword : ¬ EndsInWord a.toList) (hb : ∀ c ∈ b.toList.head?, isDelimiter c = true)
    (htt : Leads policy b.toList tt left) (hu : Unreadable policy left u) :
    ∃ line column, tokenize C policy (a ++ w ++ b) = .error (.unfinished u line column) := by
  obtain ⟨ss, -, hleads⟩ := hw.exists_leads ha hword hb
  exact ⟨_, _, tokenize_eq_unfinished_of_leads hlen (hleads htt) hu⟩

end Spells

end Catalog

/-- **Every word for an instruction means it, in every context.**  Behind a complete text that does
not end in a word, and before a text that is empty or begins with a delimiter, two words for the
same instruction are read alike: as what the first text shows, the glyph of the instruction, and
what the second text shows; or, where the second text is refused, as a text that is refused for a
literal of the same kind. -/
theorem tokenize_abbreviation {C : Catalog} {policy : StringPolicy} {i : Instruction}
    {w w' a b : String} {ts : List Token} (hw : C.Spells w i) (hw' : C.Spells w' i)
    (hlen : (a ++ w ++ b).length ≤ wordMax) (hlen' : (a ++ w' ++ b).length ≤ wordMax)
    (ha : Complete C a ts) (hword : ¬ EndsInWord a.toList)
    (hb : ∀ c ∈ b.toList.head?, isDelimiter c = true) :
    (∀ us, tokenize C policy b = .ok us → ∃ vs vs',
      tokenize C policy (a ++ w ++ b) = .ok vs ∧ tokenize C policy (a ++ w' ++ b) = .ok vs' ∧
      vs.map Token.shown =
        ts.map Token.shown ++ (.operator, i.glyph) :: us.map Token.shown ∧
      vs'.map Token.shown = vs.map Token.shown) ∧
    ∀ e, tokenize C policy b = .error e → ∃ u line column, e = .unfinished u line column ∧
      (∃ line column, tokenize C policy (a ++ w ++ b) = .error (.unfinished u line column)) ∧
      ∃ line column, tokenize C policy (a ++ w' ++ b) = .error (.unfinished u line column) := by
  constructor
  · intro us hus
    obtain ⟨vs, hvs, hshown⟩ := hw.exists_tokenize_eq_ok hlen ha hword hb hus
    obtain ⟨vs', hvs', hshown'⟩ := hw'.exists_tokenize_eq_ok hlen' ha hword hb hus
    exact ⟨vs, vs', hvs, hvs', hshown, hshown'.trans hshown.symm⟩
  · intro e he
    have hlenb : b.length ≤ wordMax := by
      rw [String.length_append] at hlen
      exact Nat.le_trans (Nat.le_add_left _ _) hlen
    obtain ⟨tt, left, u, htt, hu, -⟩ := (tokenize_eq_error_iff hlenb).1 he
    have hkind := Except.error.inj (he.symm.trans (tokenize_eq_unfinished_of_leads hlenb htt hu))
    exact ⟨u, _, _, hkind, hw.exists_tokenize_eq_unfinished hlen ha hword hb htt hu,
      hw'.exists_tokenize_eq_unfinished hlen' ha hword hb htt hu⟩

/-- A number may stand in front of either word. -/
theorem tokenize_abbreviation_reverse :
    ∃ vs vs', tokenize .standard .reject ("7" ++ "rev" ++ ")") = .ok vs ∧
      tokenize .standard .reject ("7" ++ "reverse" ++ ")") = .ok vs' ∧
      vs.map Token.shown = [(.number, "7")] ++ (.operator, "⇌") :: [(.paren, ")")] ∧
      vs'.map Token.shown = vs.map Token.shown := by
  have hseven : (Segment.number ['7']).Fits .reject [] :=
    .number (List.cons_ne_nil _ _) (List.forall_mem_singleton.2 (by decide)) fun _ hc => nomatch hc
  have hfactors : Segment.Factors .reject "7".toList [.number ['7']] := by
    rw [String.toList_ofList]
    exact .cons hseven .nil
  have hlast : ∀ ss s, Segment.Factors .reject "7".toList (ss ++ [s]) → s = .number ['7'] := by
    intro ss s h
    have hconcat := congrArg List.getLast? (h.unique hfactors)
    rw [List.getLast?_concat] at hconcat
    exact Option.some.inj hconcat
  have ha : Complete .standard "7" [⟨.number, "7", ⟨⟨0, 0, 0⟩, ⟨1, 0, 1⟩⟩⟩] :=
    ⟨by decide +kernel, fun ⟨ss, _, h⟩ => nomatch hlast ss _ h⟩
  have hb : ∀ c ∈ ")".toList.head?, isDelimiter c = true := by
    rw [String.toList_ofList]
    rintro c hc
    obtain rfl := Option.some.inj hc
    decide
  have hrev : Catalog.standard.Spells "rev" ⟨"⇌", ["reverse"]⟩ := by decide +kernel
  have hreverse : Catalog.standard.Spells "reverse" ⟨"⇌", ["reverse"]⟩ := by decide +kernel
  exact (tokenize_abbreviation hrev hreverse (by decide +kernel) (by decide +kernel) ha
    (fun ⟨ss, _, h⟩ => nomatch hlast ss _ h) hb).1
    [⟨.paren, ")", ⟨⟨0, 0, 0⟩, ⟨1, 0, 1⟩⟩⟩] (by decide +kernel)

end Mnemonic
