import Mnemonic.Proofs.Concatenation

/-!
# Proofs/Unfinished — the literal that a source does not finish

A source that cannot be read is a text that is complete by itself and then a literal that the source
does not finish; `Stops C policy source before ts u` says so, with the text and its tokens.  The
text is the only one, its tokens are handed out before the error, and the error names its end
(`tokenize_error_iff_stops`).
-/

namespace Mnemonic

open Position (reached)
open Segment (Factors Leads Unreadable)

/-! ## Complete texts -/

/-- Whether a text ends in a comment that no line break ends. -/
def Segment.EndsInComment (cs : List Char) : Prop :=
  ∃ ss body, Factors .reject cs (ss ++ [.comment body false])

/-- Whether a text ends in a word. -/
def Segment.EndsInWord (cs : List Char) : Prop :=
  ∃ ss run, Factors .reject cs (ss ++ [.word run])

/-- Whether `ts` are the tokens of a text in which nothing stays open at the end. -/
structure Complete (C : Catalog) (before : String) (ts : List Token) : Prop where
  tokenize_eq : tokenize C .reject before = .ok ts
  not_endsInComment : ¬ Segment.EndsInComment before.toList

/-- Whether `source` is the complete text `before`, with the tokens `ts`, and then a literal `u`
that it does not finish: an at sign at its end or, unless strings may run on to the end, a quote
without a second one. -/
inductive Stops (C : Catalog) (policy : StringPolicy) :
    String → String → List Token → Unterminated → Prop
  | char {before : String} {ts : List Token} (h : Complete C before ts) :
      Stops C policy (before ++ "@") before ts .char
  | string {before body : String} {ts : List Token} (hp : policy = .reject)
      (h : Complete C before ts) (hb : '"' ∉ body.toList) :
      Stops C policy (before ++ "\"" ++ body) before ts .string

/-- The error of a literal that begins at this place, counted from `1`. -/
def LexError.unfinished : Unterminated → Nat → Nat → LexError
  | .char => unterminatedChar
  | .string => unterminatedString

theorem LexError.unfinished_inj {u u' : Unterminated} {line line' column column' : Nat} :
    unfinished u line column = unfinished u' line' column' ↔
      u = u' ∧ line = line' ∧ column = column' := by
  cases u <;> cases u' <;> simp [unfinished]

variable {C : Catalog} {policy : StringPolicy} {source before : String} {cs left : List Char}
  {ss : List Segment} {ts : List Token} {u : Unterminated}

theorem LexError.unterminated_eq_unfinished (h : cs.length < wordMax) (u : Unterminated) :
    unterminated (reached cs) u =
      .unfinished u ((reached cs).line + 1) ((reached cs).column + 1) := by
  rw [unterminated_reached h]
  match u with
  | .char | .string => rfl

/-- **A source whose leading segments end at an unfinished literal is refused there.** -/
theorem tokenize_eq_unfinished_of_leads (hlen : source.length ≤ wordMax)
    (h : Leads policy source.toList ss left) (hu : Unreadable policy left u) :
    tokenize C policy source =
      .error (.unfinished u ((reached (ss.flatMap Segment.text)).line + 1)
        ((reached (ss.flatMap Segment.text)).column + 1)) := by
  have hbefore := h.length_lt hu.ne_nil
  rw [String.length_toList] at hbefore
  rw [tokenize_of_unreadable hlen h hu,
    LexError.unterminated_eq_unfinished (Nat.lt_of_lt_of_le hbefore hlen)]

/-! ## Complete texts as leading segments -/

/-- An unfinished literal begins with a delimiter, which is no digit. -/
theorem Segment.Unreadable.head?_eq (h : Unreadable policy left u) :
    ∀ c ∈ left.head?, c.isDigit = false ∧ isDelimiter c = true := by
  intro c hc
  match h with
  | .char =>
    obtain rfl := Option.some.inj hc
    decide
  | .string _ _ =>
    obtain rfl := Option.some.inj hc
    decide

/-- No comment is open where something follows. -/
theorem Segment.Leads.not_endsInComment (h : Leads policy cs ss left) (hne : left ≠ []) :
    ¬ EndsInComment (ss.flatMap text) := by
  rintro ⟨tt, body, htt⟩
  have hlast : Segment.comment body false ∈ ss := by
    rw [(h.factors hne).unique htt]
    exact List.mem_concat_self
  obtain ⟨rest, hrest, hfits⟩ := h.exists_fits_of_mem hne hlast
  match hfits with
  | .lastComment _ => exact hrest rfl

theorem ofList_quote (cs : List Char) : String.ofList ('"' :: cs) = "\"" ++ .ofList cs :=
  String.ofList_cons

/-- Leading segments and what is left make up the source. -/
theorem Segment.Leads.source_eq (h : Leads policy source.toList ss left) :
    source = .ofList (ss.flatMap text) ++ .ofList left := by
  rw [← String.ofList_append, h.text_eq, String.ofList_toList]

/-- What is before an unfinished literal is complete. -/
theorem Segment.Leads.complete (h : Leads policy source.toList ss left) (hne : left ≠ [])
    (hlen : source.length ≤ wordMax) :
    Complete C (.ofList (ss.flatMap text)) (row C [] ss) := by
  have hbefore : (String.ofList (ss.flatMap text)).length ≤ wordMax := by
    rw [String.length_ofList]
    rw [← String.length_toList] at hlen
    exact Nat.le_trans (Nat.le_of_lt (h.length_lt hne)) hlen
  constructor
  · refine tokenize_of_factors hbefore ?_
    rw [String.toList_ofList]
    exact h.factors hne
  · rw [String.toList_ofList]
    exact h.not_endsInComment hne

/-- **The segments of a complete text lead up to what is put behind it**, unless that goes on with
the last of them, and under every policy. -/
theorem Complete.exists_leads {more : List Char} (h : Complete C before ts)
    (hmore : ∀ c ∈ more.head?, c.isDigit = false ∧
      (Segment.EndsInWord before.toList → isDelimiter c = true)) :
    ∃ ss, (∀ policy, Leads policy (before.toList ++ more) ss more) ∧
      before.toList = ss.flatMap Segment.text ∧ ts = Segment.row C [] ss := by
  obtain ⟨-, ss, hss, rfl⟩ := tokenize_eq_row_iff.1 h.tokenize_eq
  refine ⟨ss, fun policy => Segment.leads_append_of_factors hss fun s hs => ?_,
    hss.text_eq.symm, rfl⟩
  obtain ⟨tt, rfl⟩ := List.getLast?_eq_some_iff.1 hs
  obtain ⟨rest, hfits⟩ := Segment.exists_fits_of_mem hss List.mem_concat_self
  refine hfits.before ?_ (fun _ _ c hc => (hmore c hc).1) ?_
  · rintro body rfl
    exact h.not_endsInComment ⟨tt, body, hss⟩
  · rintro run rfl c hc
    exact (hmore c hc).2 ⟨tt, run, hss⟩

/-- **A source stops where its leading segments end at an unfinished literal.** -/
theorem stops_iff_leads (hlen : source.length ≤ wordMax) :
    Stops C policy source before ts u ↔
      ∃ ss left, Leads policy source.toList ss left ∧ Unreadable policy left u ∧
        before = .ofList (ss.flatMap Segment.text) ∧ ts = Segment.row C [] ss := by
  constructor
  · intro h
    match h with
    | .char hbefore =>
      have hu : Unreadable policy ['@'] .char := .char
      obtain ⟨ss, hleads, htext, rfl⟩ := hbefore.exists_leads fun c hc =>
        (hu.head?_eq c hc).imp_right fun hd _ => hd
      refine ⟨ss, _, ?_, hu, by rw [← htext, String.ofList_toList], rfl⟩
      rw [String.toList_append]
      exact hleads policy
    | @Stops.string _ _ _ body _ hp hbefore hb =>
      have hu : Unreadable policy ('"' :: body.toList) .string := .string hp hb
      obtain ⟨ss, hleads, htext, rfl⟩ := hbefore.exists_leads fun c hc =>
        (hu.head?_eq c hc).imp_right fun hd _ => hd
      refine ⟨ss, _, ?_, hu, by rw [← htext, String.ofList_toList], rfl⟩
      rw [String.toList_append, String.toList_append, List.append_assoc]
      exact hleads policy
  · rintro ⟨ss, left, hleads, hu, rfl, rfl⟩
    have hcomplete := hleads.complete (C := C) hu.ne_nil hlen
    have hsource := hleads.source_eq
    match hu with
    | .char => exact hsource ▸ .char hcomplete
    | @Segment.Unreadable.string _ body hp hb =>
      rw [ofList_quote, ← String.append_assoc] at hsource
      exact hsource ▸ .string hp hcomplete (by rwa [String.toList_ofList])

/-! ## What a source that stops is read as -/

/-- The text before an unfinished literal, and the literal, are the only ones. -/
theorem Stops.unique {before' : String} {ts' : List Token} {u' : Unterminated}
    (hlen : source.length ≤ wordMax) (h : Stops C policy source before ts u)
    (h' : Stops C policy source before' ts' u') : before' = before ∧ ts' = ts ∧ u' = u := by
  obtain ⟨ss, left, hleads, hu, rfl, rfl⟩ := (stops_iff_leads hlen).1 h
  obtain ⟨ss', left', hleads', hu', rfl, rfl⟩ := (stops_iff_leads hlen).1 h'
  obtain ⟨rfl, rfl⟩ := hleads.unique (.inr ⟨u, hu⟩) hleads' (.inr ⟨u', hu'⟩)
  exact ⟨rfl, rfl, hu'.unique hu⟩

/-- The tokens before an unfinished literal are handed out, and then its error. -/
theorem Stops.drain_eq (hlen : source.length ≤ wordMax) (h : Stops C policy source before ts u) :
    (Lexer.ofSource C policy source).drain.1 =
      ts.map .ok ++ [.error (.unterminated (reached before.toList) u)] := by
  obtain ⟨ss, left, hleads, hu, rfl, rfl⟩ := (stops_iff_leads hlen).1 h
  rw [Lexer.drain_ofSource_of_leads hlen hleads, Lexer.drain_unreadable hu, String.toList_ofList]

/-- **A source fails exactly where it stops**, with the error of the place. -/
theorem tokenize_eq_error_iff_exists_stops {e : LexError} (hlen : source.length ≤ wordMax) :
    tokenize C policy source = .error e ↔
      ∃ before ts u, Stops C policy source before ts u ∧
        e = .unterminated (reached before.toList) u := by
  rw [tokenize_eq_error_iff hlen]
  constructor
  · rintro ⟨ss, left, u, hleads, hu, rfl⟩
    refine ⟨_, _, u, (stops_iff_leads hlen).2 ⟨ss, left, hleads, hu, rfl, rfl⟩, ?_⟩
    rw [String.toList_ofList]
  · rintro ⟨before, ts, u, hstops, rfl⟩
    obtain ⟨ss, left, hleads, hu, rfl, rfl⟩ := (stops_iff_leads hlen).1 hstops
    exact ⟨ss, left, u, hleads, hu, by rw [String.toList_ofList]⟩

theorem Stops.length_lt (h : Stops C policy source before ts u) :
    before.length < source.length := by
  match h with
  | .char _ =>
    rw [String.length_append]
    exact Nat.lt_add_of_pos_right (by decide)
  | .string _ _ _ =>
    rw [String.length_append, String.length_append]
    exact Nat.lt_add_right _ (Nat.lt_add_of_pos_right (by decide))

/-- The line and the column of an unfinished literal are those of the end of the text before it. -/
theorem Stops.unterminated_eq (hlen : source.length ≤ wordMax)
    (h : Stops C policy source before ts u) :
    LexError.unterminated (reached before.toList) u =
      .unfinished u ((reached before.toList).line + 1) ((reached before.toList).column + 1) := by
  refine LexError.unterminated_eq_unfinished ?_ u
  rw [String.length_toList]
  exact Nat.lt_of_lt_of_le h.length_lt hlen

/-- **A source fails at a literal of a kind exactly where it stops at one.** -/
theorem tokenize_eq_unfinished_iff {line column : Nat} (hlen : source.length ≤ wordMax) :
    tokenize C policy source = .error (.unfinished u line column) ↔
      ∃ before ts, Stops C policy source before ts u ∧
        line = (reached before.toList).line + 1 ∧ column = (reached before.toList).column + 1 := by
  rw [tokenize_eq_error_iff_exists_stops hlen]
  constructor
  · rintro ⟨before, ts, u', hstops, he⟩
    rw [hstops.unterminated_eq hlen] at he
    obtain ⟨rfl, rfl, rfl⟩ := LexError.unfinished_inj.1 he
    exact ⟨before, ts, hstops, rfl, rfl⟩
  · rintro ⟨before, ts, hstops, rfl, rfl⟩
    exact ⟨before, ts, u, hstops, (hstops.unterminated_eq hlen).symm⟩

/-- A source that a word can count overflows nothing. -/
theorem tokenize_ne_overflow {cause : Overflow} (hlen : source.length ≤ wordMax) :
    tokenize C policy source ≠ .error (.overflow cause) := by
  intro h
  obtain ⟨before, ts, u, hstops, he⟩ := (tokenize_eq_error_iff_exists_stops hlen).1 h
  rw [hstops.unterminated_eq hlen] at he
  match u with
  | .char | .string => exact nomatch he

/-- **A source fails exactly at the literal that it does not finish, and says where it stands**: an
at sign that ends the source behind a complete text or, under `reject`, a quote behind one that no
second quote follows.  There is one such place, and the tokens handed out before the error are those
of the text before it. -/
theorem tokenize_error_iff_stops {C : Catalog} {source : String}
    (hlen : source.length ≤ wordMax) :
    (∀ policy line column,
      tokenize C policy source = .error (.unterminatedChar line column) ↔
        ∃ before ts, Stops C policy source before ts .char ∧
          line = (reached before.toList).line + 1 ∧
          column = (reached before.toList).column + 1) ∧
    (∀ policy line column,
      tokenize C policy source = .error (.unterminatedString line column) ↔
        ∃ before ts, Stops C policy source before ts .string ∧
          line = (reached before.toList).line + 1 ∧
          column = (reached before.toList).column + 1) ∧
    (∀ policy cause, tokenize C policy source ≠ .error (.overflow cause)) ∧
    ∀ policy before ts u, Stops C policy source before ts u →
      (∀ before' ts' u', Stops C policy source before' ts' u' →
        before' = before ∧ ts' = ts ∧ u' = u) ∧
      ∃ e, tokenize C policy source = .error e ∧
        (Lexer.ofSource C policy source).drain.1 = ts.map .ok ++ [.error e] := by
  refine ⟨fun policy line column => tokenize_eq_unfinished_iff (u := .char) hlen,
    fun policy line column => tokenize_eq_unfinished_iff (u := .string) hlen,
    fun policy cause => tokenize_ne_overflow hlen, fun policy before ts u hstops => ?_⟩
  refine ⟨fun before' ts' u' hstops' => hstops.unique hlen hstops', _, ?_, hstops.drain_eq hlen⟩
  exact (tokenize_eq_error_iff_exists_stops hlen).2 ⟨before, ts, u, hstops, rfl⟩

/-- The first at sign begins a literal, the second is in a string and the third ends the source. -/
theorem tokenize_error_iff_stops_third :
    ∃ before ts, Stops .standard .reject "@\n\"@\"@" before ts .char ∧
      2 = (reached before.toList).line + 1 ∧ 4 = (reached before.toList).column + 1 :=
  ((tokenize_error_iff_stops (by decide +kernel)).1 .reject 2 4).1 (by decide +kernel)

end Mnemonic
