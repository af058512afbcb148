import Mnemonic.Segment.Grammar
import Mnemonic.Text.Cut

/-!
# Segment/Reading — the first segment of a text

`read` finds the segment at the start of a text and leaves what follows it.  It looks at characters
alone, and **finds exactly the segment that fits** (`read_eq_ok_iff`).
-/

namespace Mnemonic.Segment

/-- The rest of a comment. -/
def readComment (cs : List Char) : Segment × List Char :=
  match upTo '\n' cs with
  | (body, some rest) => (comment body true, rest)
  | (body, none) => (comment body false, [])

/-- The rest of a string literal. -/
def readString (policy : StringPolicy) (cs : List Char) :
    Except Unterminated (Segment × List Char) :=
  match upTo '"' cs, policy with
  | (body, some rest), _ => .ok (string body true, rest)
  | (body, none), .extendToEnd => .ok (string body false, [])
  | (_, none), .reject => .error .string

/-- The segment at the start of `c :: cs`, and what follows it.  The lead of a word belongs to it
whatever it is; this is how a lambda can begin a word though it ends one. -/
def read (policy : StringPolicy) (c : Char) (cs : List Char) :
    Except Unterminated (Segment × List Char) :=
  if isBlank c then .ok (blank c, cs)
  else if c = '#' then .ok (readComment cs)
  else if c = '"' then readString policy cs
  else if c = '@' then
    match cs with
    | [] => .error .char
    | d :: rest => .ok (char d, rest)
  else if c = '(' ∨ c = ')' then .ok (paren c, cs)
  else if c = '[' ∨ c = ']' then .ok (bracket c, cs)
  else if c.isDigit then
    .ok (number (c :: cs.takeWhile Char.isDigit), cs.dropWhile Char.isDigit)
  else
    .ok (word (c :: cs.takeWhile (!isDelimiter ·)), cs.dropWhile (!isDelimiter ·))

/-! ## The forms apart -/

theorem isBlank_eq_false_of_mem {c : Char} (h : c ∈ ['#', '"', '@', '(', ')', '[', ']', 'λ']) :
    isBlank c = false := by
  have hall : (['#', '"', '@', '(', ')', '[', ']', 'λ'].all (!isBlank ·)) = true := by decide
  simpa using List.all_eq_true.1 hall c h

theorem isDigit_eq_false_of_mem {c : Char} (h : c ∈ ['#', '"', '@', '(', ')', '[', ']']) :
    c.isDigit = false := by
  have hall : (['#', '"', '@', '(', ')', '[', ']'].all (!·.isDigit)) = true := by decide
  simpa using List.all_eq_true.1 hall c h

theorem isBlank_eq_false_of_isDigit {c : Char} (h : c.isDigit = true) : isBlank c = false := by
  simp only [Char.isDigit, Bool.and_eq_true, decide_eq_true_eq] at h
  have h1 : 48 ≤ c.toNat := h.1
  have h2 : c.toNat ≤ 57 := h.2
  simp only [isBlank, Bool.or_eq_false_iff, Bool.and_eq_false_iff, decide_eq_false_iff_not,
    beq_eq_false_iff_ne]
  omega

/-- A word begins where no other form does. -/
theorem opensWord_iff_notMem {c : Char} :
    opensWord c = true ↔
      isBlank c = false ∧ c ∉ ['#', '"', '@', '(', ')', '[', ']'] ∧ c.isDigit = false := by
  by_cases hc : c = 'λ'
  · subst hc
    decide
  · simp only [opensWord, isDelimiter, List.contains_eq_mem]
    grind

/-- The ways in which the first character of a text decides what is read. -/
inductive Opens : Char → Prop
  | blank {c : Char} (hc : isBlank c = true) : Opens c
  | comment : Opens '#'
  | string : Opens '"'
  | char : Opens '@'
  | paren {c : Char} (hc : c = '(' ∨ c = ')') : Opens c
  | bracket {c : Char} (hc : c = '[' ∨ c = ']') : Opens c
  | run {c : Char} (hb : isBlank c = false) (hm : c ∉ ['#', '"', '@', '(', ')', '[', ']']) : Opens c

theorem opens (c : Char) : Opens c := by
  by_cases hm : c ∈ ['#', '"', '@', '(', ')', '[', ']']
  · simp only [List.mem_cons, List.not_mem_nil, or_false] at hm
    rcases hm with rfl | rfl | rfl | hparen | hparen | hbracket | hbracket
    · exact .comment
    · exact .string
    · exact .char
    · exact .paren (.inl hparen)
    · exact .paren (.inr hparen)
    · exact .bracket (.inl hbracket)
    · exact .bracket (.inr hbracket)
  · rcases hb : isBlank c with _ | _
    · exact .run hb hm
    · exact .blank hb

variable {policy : StringPolicy} {c : Char} {cs : List Char}

theorem read_blank (h : isBlank c = true) : read policy c cs = .ok (blank c, cs) := by
  simp [read, h]

theorem read_comment : read policy '#' cs = .ok (readComment cs) := by
  simp [read, isBlank_eq_false_of_mem]

theorem read_string : read policy '"' cs = readString policy cs := by
  simp [read, isBlank_eq_false_of_mem]

theorem read_char {d : Char} : read policy '@' (d :: cs) = .ok (char d, cs) := by
  simp [read, isBlank_eq_false_of_mem]

theorem read_char_nil : read policy '@' [] = .error .char := by
  simp [read, isBlank_eq_false_of_mem]

theorem read_paren (h : c = '(' ∨ c = ')') : read policy c cs = .ok (paren c, cs) := by
  rcases h with rfl | rfl <;> simp [read, isBlank_eq_false_of_mem]

theorem read_bracket (h : c = '[' ∨ c = ']') : read policy c cs = .ok (bracket c, cs) := by
  rcases h with rfl | rfl <;> simp [read, isBlank_eq_false_of_mem]

/-- A character that opens none of the other forms is the lead of a number or of a word. -/
theorem read_run (hb : isBlank c = false) (hm : c ∉ ['#', '"', '@', '(', ')', '[', ']']) :
    read policy c cs =
      if c.isDigit then
        .ok (number (c :: cs.takeWhile Char.isDigit), cs.dropWhile Char.isDigit)
      else
        .ok (word (c :: cs.takeWhile (!isDelimiter ·)), cs.dropWhile (!isDelimiter ·)) := by
  simp only [List.mem_cons, not_or, List.not_mem_nil, not_false_eq_true, and_true] at hm
  simp [read, hb, hm]

/-! ## What is read fits -/

variable {rest : List Char} {s : Segment}

theorem of_readComment (h : readComment cs = (s, rest)) :
    s.text ++ rest = '#' :: cs ∧ s.Fits policy rest := by
  unfold readComment at h
  split at h
  · rename_i body rest hcut
    obtain ⟨rfl, hb⟩ := upTo_eq_some_iff.1 hcut
    obtain ⟨rfl, rfl⟩ := Prod.mk.inj h
    exact ⟨by simp [text], .comment hb⟩
  · rename_i body hcut
    obtain ⟨rfl, hb⟩ := upTo_eq_none_iff.1 hcut
    obtain ⟨rfl, rfl⟩ := Prod.mk.inj h
    exact ⟨by simp [text], .lastComment hb⟩

theorem of_readString (h : readString policy cs = .ok (s, rest)) :
    s.text ++ rest = '"' :: cs ∧ s.Fits policy rest := by
  unfold readString at h
  split at h
  · rename_i body rest hcut
    obtain ⟨rfl, hb⟩ := upTo_eq_some_iff.1 hcut
    obtain ⟨rfl, rfl⟩ := Prod.mk.inj (Except.ok.inj h)
    exact ⟨by simp [text], .string hb⟩
  · rename_i body hcut
    obtain ⟨rfl, hb⟩ := upTo_eq_none_iff.1 hcut
    obtain ⟨rfl, rfl⟩ := Prod.mk.inj (Except.ok.inj h)
    exact ⟨by simp [text], .lastString rfl hb⟩
  · exact nomatch h

/-- A run of digits that is read is as long as possible. -/
theorem fits_number (hc : c.isDigit = true) :
    (number (c :: cs.takeWhile Char.isDigit)).Fits policy (cs.dropWhile Char.isDigit) := by
  refine .number (List.cons_ne_nil _ _) (fun d hd => ?_) fun d hd =>
    eq_false_of_mem_head?_dropWhile hd
  rcases List.mem_cons.1 hd with rfl | hd
  · exact hc
  · exact List.all_eq_true.1 List.all_takeWhile d hd

/-- A word that is read is as long as possible. -/
theorem fits_word (hc : opensWord c = true) :
    (word (c :: cs.takeWhile (!isDelimiter ·))).Fits policy (cs.dropWhile (!isDelimiter ·)) := by
  refine .word hc (fun d hd => ?_) fun d hd => ?_
  · exact Bool.not_eq_true' _ ▸ List.all_eq_true.1 List.all_takeWhile d hd
  · exact Bool.not_eq_false' _ ▸ eq_false_of_mem_head?_dropWhile hd

/-- Nothing is lost, and what is read fits. -/
theorem of_read (h : read policy c cs = .ok (s, rest)) :
    s.text ++ rest = c :: cs ∧ s.Fits policy rest := by
  match opens c, cs with
  | .blank hc, _ =>
    obtain ⟨rfl, rfl⟩ := Prod.mk.inj (Except.ok.inj ((read_blank hc).symm.trans h))
    exact ⟨rfl, .blank hc⟩
  | .comment, _ => exact of_readComment (Except.ok.inj (read_comment.symm.trans h))
  | .string, _ => exact of_readString (read_string.symm.trans h)
  | .char, [] => exact nomatch read_char_nil.symm.trans h
  | .char, d :: _ =>
    obtain ⟨rfl, rfl⟩ := Prod.mk.inj (Except.ok.inj (read_char.symm.trans h))
    exact ⟨rfl, .char⟩
  | .paren hc, _ =>
    obtain ⟨rfl, rfl⟩ := Prod.mk.inj (Except.ok.inj ((read_paren hc).symm.trans h))
    exact ⟨rfl, .paren hc⟩
  | .bracket hc, _ =>
    obtain ⟨rfl, rfl⟩ := Prod.mk.inj (Except.ok.inj ((read_bracket hc).symm.trans h))
    exact ⟨rfl, .bracket hc⟩
  | .run hb hm, _ =>
    rw [read_run hb hm] at h
    split at h
    · rename_i hdigit
      obtain ⟨rfl, rfl⟩ := Prod.mk.inj (Except.ok.inj h)
      exact ⟨congrArg _ List.takeWhile_append_dropWhile, fits_number hdigit⟩
    · rename_i hdigit
      obtain ⟨rfl, rfl⟩ := Prod.mk.inj (Except.ok.inj h)
      exact ⟨congrArg _ List.takeWhile_append_dropWhile,
        fits_word (opensWord_iff_notMem.2 ⟨hb, hm, Bool.eq_false_iff.2 hdigit⟩)⟩

/-! ## What fits is read -/

/-- What fits is read. -/
theorem read_of_fits (h : s.Fits policy rest) (htext : s.text ++ rest = c :: cs) :
    read policy c cs = .ok (s, rest) := by
  match h with
  | .blank hc =>
    obtain ⟨rfl, rfl⟩ := List.cons.inj htext
    exact read_blank hc
  | .comment hb =>
    obtain ⟨rfl, rfl⟩ := List.cons.inj htext
    simp [read_comment, readComment, upTo_eq_some_iff.2 ⟨rfl, hb⟩]
  | .lastComment hb =>
    obtain ⟨rfl, rfl⟩ := List.cons.inj htext
    simp [read_comment, readComment, upTo_eq_none_iff.2 ⟨rfl, hb⟩]
  | .string hb =>
    obtain ⟨rfl, rfl⟩ := List.cons.inj htext
    simp [read_string, readString, upTo_eq_some_iff.2 ⟨rfl, hb⟩]
  | .lastString hp hb =>
    obtain ⟨rfl, rfl⟩ := List.cons.inj htext
    simp [read_string, readString, upTo_eq_none_iff.2 ⟨rfl, hb⟩, hp]
  | .char =>
    obtain ⟨rfl, rfl⟩ := List.cons.inj htext
    exact read_char
  | .paren hc =>
    obtain ⟨rfl, rfl⟩ := List.cons.inj htext
    exact read_paren hc
  | .bracket hc =>
    obtain ⟨rfl, rfl⟩ := List.cons.inj htext
    exact read_bracket hc
  | @Fits.number _ digits _ hne hd hr =>
    obtain ⟨d, ds, rfl⟩ := List.exists_cons_of_ne_nil hne
    obtain ⟨rfl, rfl⟩ := List.cons.inj htext
    have hdigit : d.isDigit = true := hd d List.mem_cons_self
    have hm : d ∉ ['#', '"', '@', '(', ')', '[', ']'] := fun hm =>
      absurd hdigit (by simp [isDigit_eq_false_of_mem hm])
    obtain ⟨ht, hw⟩ := takeWhile_dropWhile_append
      (fun c hc => hd c (List.mem_cons_of_mem d hc)) hr
    rw [read_run (isBlank_eq_false_of_isDigit hdigit) hm, if_pos hdigit, List.append_eq, ht, hw]
  | @Fits.word _ lead tail _ hc ht hr =>
    obtain ⟨rfl, rfl⟩ := List.cons.inj htext
    obtain ⟨hb, hm, hdigit⟩ := opensWord_iff_notMem.1 hc
    obtain ⟨ht', hw⟩ := takeWhile_dropWhile_append (p := (!isDelimiter ·))
      (fun c hc => by simp [ht c hc]) (fun c hc => by simp [hr c hc])
    rw [read_run hb hm, if_neg (Bool.eq_false_iff.1 hdigit), List.append_eq, ht', hw]

/-- **Reading the first segment of a text finds exactly the one that fits.** -/
theorem read_eq_ok_iff :
    read policy c cs = .ok (s, rest) ↔ s.text ++ rest = c :: cs ∧ s.Fits policy rest :=
  ⟨of_read, fun h => read_of_fits h.2 h.1⟩

end Mnemonic.Segment
