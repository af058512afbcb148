import Mnemonic.Proofs.Unfinished

/-!
# Proofs/Policies — the two string policies differ on the last string only

A source that is read under `reject` is read alike under `extendToEnd`, and an at sign at its end
fails under both.  A string that the source does not close is the one difference: it is the last
token under `extendToEnd`, and under `reject` once a quote is put behind the source
(`tokenize_extendToEnd`).
-/

namespace Mnemonic

open Position (reached)
open Segment (Leads)

variable {C : Catalog} {policy : StringPolicy} {source before : String} {cs : List Char}
  {ss : List Segment} {ts : List Token}

/-! ## What every policy reads -/

namespace Segment

/-- What fits where strings have to be closed fits under every policy. -/
theorem Fits.of_reject {s : Segment} {rest : List Char} (h : s.Fits .reject rest) :
    s.Fits policy rest := by
  match h with
  | .blank hc => exact .blank hc
  | .comment hb => exact .comment hb
  | .lastComment hb => exact .lastComment hb
  | .string hb => exact .string hb
  | .lastString hp _ => exact nomatch hp
  | .char => exact .char
  | .paren hc => exact .paren hc
  | .bracket hc => exact .bracket hc
  | .number hne hd hr => exact .number hne hd hr
  | .word hc ht hr => exact .word hc ht hr

theorem Factors.of_reject (h : Factors .reject cs ss) : Factors policy cs ss := by
  induction h with
  | nil => exact .nil
  | cons hs _ ih => exact .cons hs.of_reject ih

end Segment

/-- An at sign at the end of a source is unfinished under every policy. -/
theorem Stops.of_char {policy' : StringPolicy} (h : Stops C policy source before ts .char) :
    Stops C policy' source before ts .char := by
  match h with
  | .char hbefore => exact .char hbefore

/-! ## The last string -/

/-- A string behind the segments `ss` is one more token. -/
theorem Segment.row_concat_string (C : Catalog) (ss : List Segment) (body : List Char)
    (closed : Bool) :
    row C [] (ss ++ [string body closed]) =
      row C [] ss ++ [⟨.string, .ofList (string body closed).text,
        .over (ss.flatMap text) (string body closed).text⟩] := by
  rw [row_append]
  rfl

/-- **Segments that leave a string to the end are read with the string as the last token.** -/
theorem tokenize_of_leads_string {body : List Char} {closed : Bool}
    (hlen : source.length ≤ wordMax)
    (h : Leads policy source.toList ss (Segment.string body closed).text)
    (hs : (Segment.string body closed).Fits policy []) :
    tokenize C policy source =
      .ok (Segment.row C [] ss ++ [⟨.string, .ofList (Segment.string body closed).text,
        ⟨reached (ss.flatMap Segment.text), reached source.toList⟩⟩]) := by
  have hlast : Leads policy (Segment.string body closed).text [.string body closed] [] := by
    have hcons := Leads.cons hs .nil
    rwa [List.append_nil] at hcons
  have hss := Segment.factors_iff_leads.2 (h.append hlast)
  rw [tokenize_of_factors hlen hss, Segment.row_concat_string, Span.over, h.text_eq]

/-- **A string that is not closed is the last token where strings may run on to the end**, and
everywhere once a quote closes it. -/
theorem Stops.tokenize_string (hlen : (source ++ "\"").length ≤ wordMax)
    (h : Stops C .reject source before ts .string) :
    ∃ body, source = before ++ "\"" ++ body ∧
      tokenize C .extendToEnd source =
        .ok (ts ++ [⟨.string, "\"" ++ body, ⟨reached before.toList, reached source.toList⟩⟩]) ∧
      tokenize C .reject (source ++ "\"") =
        .ok (ts ++ [⟨.string, "\"" ++ body ++ "\"",
          ⟨reached before.toList, reached (source ++ "\"").toList⟩⟩]) := by
  have hlen' : source.length ≤ wordMax := by
    rw [String.length_append] at hlen
    omega
  obtain ⟨ss, left, hleads, hu, rfl, rfl⟩ := (stops_iff_leads hlen').1 h
  obtain ⟨body, rfl, hb⟩ : ∃ body, left = '"' :: body ∧ '"' ∉ body := by
    match hu with
    | .string _ hb => exact ⟨_, rfl, hb⟩
  have hopen : Leads .extendToEnd source.toList ss (Segment.string body false).text := by
    have hmore : Leads .extendToEnd (source.toList ++ []) ss ('"' :: body ++ []) :=
      hleads.append_text hu.ne_nil []
    rwa [List.append_nil] at hmore
  have hclosed : Leads .reject (source ++ "\"").toList ss (Segment.string body true).text := by
    rw [String.toList_append]
    exact hleads.append_text hu.ne_nil ['"']
  refine ⟨.ofList body, ?_, ?_, ?_⟩
  · rw [String.append_assoc, ← ofList_quote]
    exact hleads.source_eq
  · rw [tokenize_of_leads_string hlen' hopen (.lastString rfl hb), String.toList_ofList,
      ← ofList_quote]
    simp only [Segment.text, Bool.false_eq_true, if_false, List.append_nil]
  · rw [tokenize_of_leads_string hlen hclosed (.string hb), String.toList_ofList,
      ← ofList_quote, ← String.ofList_append]
    rfl

/-- **The policies differ only on a last string that is not closed.** -/
theorem tokenize_extendToEnd {C : Catalog} {source : String}
    (hlen : (source ++ "\"").length ≤ wordMax) :
    (∀ ts, tokenize C .reject source = .ok ts → tokenize C .extendToEnd source = .ok ts) ∧
    (∀ line column, tokenize C .reject source = .error (.unterminatedChar line column) →
      tokenize C .extendToEnd source = .error (.unterminatedChar line column)) ∧
    (∀ line column, tokenize C .reject source = .error (.unterminatedString line column) →
      ∃ before body ts, source = before ++ "\"" ++ body ∧
        line = (reached before.toList).line + 1 ∧ column = (reached before.toList).column + 1 ∧
        (Lexer.ofSource C .reject source).drain.1 =
          ts.map .ok ++ [.error (.unterminatedString line column)] ∧
        tokenize C .extendToEnd source =
          .ok (ts ++ [⟨.string, "\"" ++ body, ⟨reached before.toList, reached source.toList⟩⟩]) ∧
        tokenize C .reject (source ++ "\"") =
          .ok (ts ++ [⟨.string, "\"" ++ body ++ "\"", ⟨reached before.toList,
            ⟨(reached source.toList).offset + 1, (reached source.toList).line,
              (reached source.toList).column + 1⟩⟩⟩])) ∧
    ∀ line column, tokenize C .extendToEnd source ≠ .error (.unterminatedString line column) := by
  have hlen' : source.length ≤ wordMax := by
    rw [String.length_append] at hlen
    omega
  refine ⟨fun ts h => ?_, fun line column h => ?_, fun line column h => ?_,
    fun line column h => ?_⟩
  · obtain ⟨-, ss, hss, rfl⟩ := tokenize_eq_row_iff.1 h
    exact tokenize_of_factors hlen' hss.of_reject
  · obtain ⟨before, ts, hstops, hplace⟩ := (tokenize_eq_unfinished_iff (u := .char) hlen').1 h
    exact (tokenize_eq_unfinished_iff (u := .char) hlen').2 ⟨before, ts, hstops.of_char, hplace⟩
  · obtain ⟨before, ts, hstops, rfl, rfl⟩ :=
      (tokenize_eq_unfinished_iff (u := .string) hlen').1 h
    obtain ⟨body, hsource, hextended, hclosed⟩ := hstops.tokenize_string hlen
    have hstop := Position.reached_concat source.toList (c := '"') (by decide)
    rw [String.toList_append] at hclosed
    have hdrain := hstops.drain_eq hlen'
    rw [hstops.unterminated_eq hlen'] at hdrain
    exact ⟨before, body, ts, hsource, rfl, rfl, hdrain, hextended, hstop ▸ hclosed⟩
  · obtain ⟨before, ts, hstops, -⟩ := (tokenize_eq_unfinished_iff (u := .string) hlen').1 h
    match hstops with
    | .string hp _ _ => exact nomatch hp

/-- Behind a quote neither an at sign nor a number sign nor a line break begins anything. -/
theorem tokenize_extendToEnd_marks :
    ∃ before body ts, "7\"@\n#" = before ++ "\"" ++ body ∧
      1 = (reached before.toList).line + 1 ∧ 2 = (reached before.toList).column + 1 ∧
      (Lexer.ofSource .standard .reject "7\"@\n#").drain.1 =
        ts.map .ok ++ [.error (.unterminatedString 1 2)] ∧
      tokenize .standard .extendToEnd "7\"@\n#" =
        .ok (ts ++ [⟨.string, "\"" ++ body, ⟨reached before.toList,
          reached "7\"@\n#".toList⟩⟩]) ∧
      tokenize .standard .reject ("7\"@\n#" ++ "\"") =
        .ok (ts ++ [⟨.string, "\"" ++ body ++ "\"", ⟨reached before.toList,
          ⟨(reached "7\"@\n#".toList).offset + 1, (reached "7\"@\n#".toList).line,
            (reached "7\"@\n#".toList).column + 1⟩⟩⟩]) :=
  (tokenize_extendToEnd (by decide +kernel)).2.2.1 1 2 (by decide +kernel)

end Mnemonic
