import Mnemonic.Segment.Reading

/-!
# Proofs/Leading — the first segments of a text

`Leads policy cs ss left` says that `ss` are the first segments of `cs` and that `left` follows
them; with nothing left it is `Factors`.  Every text leads, in one way, either to its end or to a
literal that it does not finish (`exists_leads`, `Leads.unique`), and a text that is lengthened
where its last segment ends keeps its segments (`leads_append_of_factors`).  Leading segments that
something follows are, by themselves, the segments of what they cover (`Leads.factors`).
-/

namespace Mnemonic.Segment

/-! ## Literals that are not finished -/

/-- Whether a text begins with a literal that it does not finish. -/
inductive Unreadable (policy : StringPolicy) : List Char → Unterminated → Prop
  | char : Unreadable policy ['@'] .char
  | string {body : List Char} (hp : policy = .reject) (hb : '"' ∉ body) :
      Unreadable policy ('"' :: body) .string

theorem Unreadable.ne_nil {policy : StringPolicy} {cs : List Char} {u : Unterminated}
    (h : Unreadable policy cs u) : cs ≠ [] := by
  match h with
  | .char | .string _ _ => exact List.cons_ne_nil _ _

/-- A text begins with only one unfinished literal. -/
theorem Unreadable.unique {policy : StringPolicy} {cs : List Char} {u u' : Unterminated}
    (h : Unreadable policy cs u) (h' : Unreadable policy cs u') : u = u' := by
  match h, h' with
  | .char, .char | .string _ _, .string _ _ => rfl

theorem readString_eq_error_iff {policy : StringPolicy} {cs : List Char} {u : Unterminated} :
    readString policy cs = .error u ↔ u = .string ∧ policy = .reject ∧ '"' ∉ cs := by
  constructor
  · intro h
    unfold readString at h
    split at h
    · exact nomatch h
    · exact nomatch h
    · rename_i body hcut
      obtain ⟨rfl, hb⟩ := upTo_eq_none_iff.1 hcut
      exact ⟨(Except.error.inj h).symm, rfl, hb⟩
  · rintro ⟨rfl, rfl, hb⟩
    have hcut : upTo '"' cs = (cs, none) := upTo_eq_none_iff.2 ⟨rfl, hb⟩
    unfold readString
    rw [hcut]

/-- **Reading fails exactly at a literal that is not finished.** -/
theorem read_eq_error_iff {policy : StringPolicy} {c : Char} {cs : List Char} {u : Unterminated} :
    read policy c cs = .error u ↔ Unreadable policy (c :: cs) u := by
  constructor
  · intro h
    match opens c, cs with
    | .blank hc, _ => exact nomatch (read_blank hc).symm.trans h
    | .comment, _ => exact nomatch read_comment.symm.trans h
    | .string, _ =>
      obtain ⟨rfl, hp, hb⟩ := readString_eq_error_iff.1 (read_string.symm.trans h)
      exact .string hp hb
    | .char, [] =>
      obtain rfl := Except.error.inj (read_char_nil.symm.trans h)
      exact .char
    | .char, _ :: _ => exact nomatch read_char.symm.trans h
    | .paren hc, _ => exact nomatch (read_paren hc).symm.trans h
    | .bracket hc, _ => exact nomatch (read_bracket hc).symm.trans h
    | .run hb hm, _ =>
      rw [read_run hb hm] at h
      split at h <;> exact nomatch h
  · intro h
    match h with
    | .char => exact read_char_nil
    | .string hp hb => exact read_string.trans (readString_eq_error_iff.2 ⟨rfl, hp, hb⟩)

/-! ## Leading segments -/

/-- Whether `ss` are the first segments of a text and `left` is what follows them. -/
inductive Leads (policy : StringPolicy) : List Char → List Segment → List Char → Prop
  | nil {cs : List Char} : Leads policy cs [] cs
  | cons {s : Segment} {rest left : List Char} {ss : List Segment} (hs : s.Fits policy rest)
      (hss : Leads policy rest ss left) : Leads policy (s.text ++ rest) (s :: ss) left

variable {policy : StringPolicy} {cs left mid : List Char} {ss tt : List Segment}

theorem factors_iff_leads : Factors policy cs ss ↔ Leads policy cs ss [] := by
  constructor
  · intro h
    induction h with
    | nil => exact .nil
    | cons hs _ ih => exact .cons hs ih
  · intro h
    generalize hleft : [] = left at h
    induction h with
    | nil => exact hleft ▸ .nil
    | cons hs _ ih => exact .cons hs (ih hleft)

/-- Segments and what is left make up the text. -/
theorem Leads.text_eq (h : Leads policy cs ss left) : ss.flatMap text ++ left = cs := by
  induction h with
  | nil => rfl
  | cons _ _ ih => rw [List.flatMap_cons, List.append_assoc, ih]

theorem Factors.text_eq (h : Factors policy cs ss) : ss.flatMap text = cs :=
  (List.append_nil _).symm.trans (factors_iff_leads.1 h).text_eq

/-- Segments that a text is left after end before it. -/
theorem Leads.length_lt (h : Leads policy cs ss left) (hleft : left ≠ []) :
    (ss.flatMap text).length < cs.length := by
  have hlen := congrArg List.length h.text_eq
  rw [List.length_append] at hlen
  have hpos := List.length_pos_iff.2 hleft
  omega

theorem Leads.append (h : Leads policy cs ss mid) (h' : Leads policy mid tt left) :
    Leads policy cs (ss ++ tt) left := by
  induction h with
  | nil => exact h'
  | cons hs _ ih => exact .cons hs (ih h')

/-- No leading segment is empty. -/
theorem Leads.text_ne_nil_of_mem (h : Leads policy cs ss left) {s : Segment} (hs : s ∈ ss) :
    s.text ≠ [] := by
  induction h with
  | nil => exact nomatch hs
  | cons hfits _ ih =>
    rcases List.mem_cons.1 hs with rfl | hs
    · exact hfits.text_ne_nil
    · exact ih hs

/-- Every segment of a text fits before something. -/
theorem exists_fits_of_mem {s : Segment} (h : Factors policy cs ss) (hs : s ∈ ss) :
    ∃ rest, s.Fits policy rest := by
  induction h with
  | nil => exact nomatch hs
  | cons hfits _ ih =>
    rcases List.mem_cons.1 hs with rfl | hs
    · exact ⟨_, hfits⟩
    · exact ih hs

/-- Where the segments of a text end: with the text, or at a literal that is not finished. -/
def Ends (policy : StringPolicy) (left : List Char) : Prop :=
  left = [] ∨ ∃ u, Unreadable policy left u

/-- **Every text has leading segments up to where they end.** -/
theorem exists_leads (policy : StringPolicy) (cs : List Char) :
    ∃ ss left, Leads policy cs ss left ∧ Ends policy left := by
  induction hn : cs.length using Nat.strongRecOn generalizing cs with
  | ind n ih =>
    match cs, hn with
    | [], _ => exact ⟨[], [], .nil, .inl rfl⟩
    | c :: tail, hn =>
      rcases hread : read policy c tail with u | ⟨s, rest⟩
      · exact ⟨[], c :: tail, .nil, .inr ⟨u, read_eq_error_iff.1 hread⟩⟩
      · obtain ⟨htext, hs⟩ := read_eq_ok_iff.1 hread
        have hpos := List.length_pos_iff.2 hs.text_ne_nil
        have hlen := congrArg List.length htext
        rw [List.length_append] at hlen
        obtain ⟨ss, left, hss, hleft⟩ := ih rest.length (by omega) rest rfl
        exact ⟨s :: ss, left, htext ▸ .cons hs hss, hleft⟩

/-- A text that a segment opens ends nowhere before it. -/
theorem Fits.not_ends {s : Segment} {rest : List Char} (h : s.Fits policy rest) :
    ¬ Ends policy (s.text ++ rest) := by
  rcases hcs : s.text ++ rest with _ | ⟨c, tail⟩
  · exact absurd (List.append_eq_nil_iff.1 hcs).1 h.text_ne_nil
  · rintro (hnil | ⟨u, hu⟩)
    · exact nomatch hnil
    · exact nomatch (read_eq_ok_iff.2 ⟨hcs, h⟩).symm.trans (read_eq_error_iff.2 hu)

/-- The segment that opens a text is the only one. -/
theorem Fits.unique {s t : Segment} {rest rest' : List Char} (hs : s.Fits policy rest)
    (ht : t.Fits policy rest') (h : t.text ++ rest' = s.text ++ rest) : t = s ∧ rest' = rest := by
  rcases hcs : s.text ++ rest with _ | ⟨c, tail⟩
  · exact absurd (List.append_eq_nil_iff.1 hcs).1 hs.text_ne_nil
  · have hread := (read_eq_ok_iff.2 ⟨h.trans hcs, ht⟩).symm.trans (read_eq_ok_iff.2 ⟨hcs, hs⟩)
    exact Prod.mk.inj (Except.ok.inj hread)

/-- **Leading segments up to where they end are unique.** -/
theorem Leads.unique {left' : List Char} (h : Leads policy cs ss left) (hleft : Ends policy left)
    (h' : Leads policy cs tt left') (hleft' : Ends policy left') : ss = tt ∧ left = left' := by
  induction h generalizing tt with
  | @nil cs =>
    match h' with
    | .nil => exact ⟨rfl, rfl⟩
    | .cons hs _ => exact absurd hleft hs.not_ends
  | @cons s rest left ss hs _ ih =>
    generalize hcs : s.text ++ rest = cs at h'
    match h' with
    | .nil => exact absurd hleft' (hcs ▸ hs.not_ends)
    | .cons ht htt =>
      obtain ⟨rfl, rfl⟩ := hs.unique ht hcs.symm
      obtain ⟨rfl, rfl⟩ := ih hleft htt
      exact ⟨rfl, rfl⟩

/-- Leading segments are the first of those up to where they end. -/
theorem Leads.exists_append_eq {left' : List Char} (h : Leads policy cs ss left)
    (h' : Leads policy cs tt left') (hleft' : Ends policy left') : ∃ uu, ss ++ uu = tt := by
  obtain ⟨uu, left'', huu, hends⟩ := exists_leads policy left
  exact ⟨uu, ((h.append huu).unique hends h' hleft').1⟩

theorem Factors.unique (h : Factors policy cs ss) (h' : Factors policy cs tt) : ss = tt :=
  ((factors_iff_leads.1 h).unique (.inl rfl) (factors_iff_leads.1 h') (.inl rfl)).1

/-! ## Longer texts -/

/-- A segment with something behind it does not see where the text ends, nor what happens there. -/
theorem Fits.append {policy' : StringPolicy} {s : Segment} {rest : List Char}
    (h : s.Fits policy rest) (hne : rest ≠ []) (more : List Char) :
    s.Fits policy' (rest ++ more) := by
  obtain ⟨d, ds, rfl⟩ := List.exists_cons_of_ne_nil hne
  match h with
  | .blank hc => exact .blank hc
  | .comment hb => exact .comment hb
  | .string hb => exact .string hb
  | .char => exact .char
  | .paren hc => exact .paren hc
  | .bracket hc => exact .bracket hc
  | .number hds hd hr => exact .number hds hd hr
  | .word hc ht hr => exact .word hc ht hr

/-- A segment that no comment leaves open fits before all that does not go on with it. -/
theorem Fits.before {s : Segment} {rest more : List Char} (h : s.Fits .reject rest)
    (hcomment : ∀ body, s ≠ .comment body false)
    (hnumber : ∀ digits, s = .number digits → ∀ c ∈ more.head?, c.isDigit = false)
    (hword : ∀ run, s = .word run → ∀ c ∈ more.head?, isDelimiter c = true) :
    s.Fits policy more := by
  match h with
  | .blank hc => exact .blank hc
  | .comment hb => exact .comment hb
  | .lastComment _ => exact absurd rfl (hcomment _)
  | .string hb => exact .string hb
  | .char => exact .char
  | .paren hc => exact .paren hc
  | .bracket hc => exact .bracket hc
  | .number hne hd _ => exact .number hne hd (hnumber _ rfl)
  | .word hc ht _ => exact .word hc ht (hword _ rfl)

/-- **A text keeps its segments when more is put behind it**, if the last of them fits there. -/
theorem leads_append_of_factors {policy' : StringPolicy} {more : List Char}
    (h : Factors policy cs ss) (hlast : ∀ s ∈ ss.getLast?, s.Fits policy' more) :
    Leads policy' (cs ++ more) ss more := by
  induction h with
  | nil => exact .nil
  | @cons s rest ss hs hss ih =>
    rw [List.append_assoc]
    match ss, hss with
    | [], .nil => exact .cons (hlast s rfl) .nil
    | t :: tt, hss =>
      have hrest : rest ≠ [] := by
        intro hnil
        have htext := hss.text_eq
        rw [hnil, List.flatMap_cons, List.append_eq_nil_iff] at htext
        exact (factors_iff_leads.1 hss).text_ne_nil_of_mem List.mem_cons_self htext.1
      exact .cons (hs.append hrest more) (ih fun s hs => hlast s (by rwa [List.getLast?_cons_cons]))

/-- **Leading segments that something follows stay when more is put behind the text.** -/
theorem Leads.append_text {policy' : StringPolicy} (h : Leads policy cs ss left) (hne : left ≠ [])
    (more : List Char) : Leads policy' (cs ++ more) ss (left ++ more) := by
  induction h with
  | nil => exact .nil
  | @cons s rest left ss hs hss ih =>
    have hrest : rest ≠ [] := by
      rw [← hss.text_eq]
      exact List.append_ne_nil_of_right_ne_nil _ hne
    rw [List.append_assoc]
    exact .cons (hs.append hrest more) (ih hne)

/-! ## Shorter texts -/

/-- A segment with something behind it fits before the start of that, whatever is cut off. -/
theorem Fits.of_append {policy' : StringPolicy} {s : Segment} {rest more : List Char}
    (h : s.Fits policy (rest ++ more)) (hne : more ≠ []) : s.Fits policy' rest := by
  have hhead : ∀ c ∈ rest.head?, c ∈ (rest ++ more).head? := by
    intro c hc
    rw [List.head?_append, Option.mem_def.1 hc]
    rfl
  have hall : rest ++ more ≠ [] := List.append_ne_nil_of_right_ne_nil rest hne
  generalize rest ++ more = all at h hhead hall
  match h with
  | .blank hc => exact .blank hc
  | .comment hb => exact .comment hb
  | .lastComment _ => exact absurd rfl hall
  | .string hb => exact .string hb
  | .lastString _ _ => exact absurd rfl hall
  | .char => exact .char
  | .paren hc => exact .paren hc
  | .bracket hc => exact .bracket hc
  | .number hds hd hr => exact .number hds hd fun c hc => hr c (hhead c hc)
  | .word hc ht hr => exact .word hc ht fun c hc => hr c (hhead c hc)

/-- **Leading segments that something follows make up what is before it**, whatever the policy. -/
theorem Leads.factors {policy' : StringPolicy} (h : Leads policy cs ss left) (hne : left ≠ []) :
    Factors policy' (ss.flatMap text) ss := by
  induction h with
  | nil => exact .nil
  | cons hs hss ih =>
    rw [← hss.text_eq] at hs
    rw [List.flatMap_cons]
    exact .cons (hs.of_append hne) (ih hne)

/-- A leading segment that something follows does not fit at the end of a text alone. -/
theorem Leads.exists_fits_of_mem {s : Segment} (h : Leads policy cs ss left) (hne : left ≠ [])
    (hs : s ∈ ss) : ∃ rest, rest ≠ [] ∧ s.Fits policy rest := by
  induction h with
  | nil => exact nomatch hs
  | cons hfits hss ih =>
    rcases List.mem_cons.1 hs with rfl | hs
    · rw [← hss.text_eq] at hfits
      exact ⟨_, List.append_ne_nil_of_right_ne_nil _ hne, hfits⟩
    · exact ih hne hs

end Mnemonic.Segment
