import Mnemonic.Text.Lines

/-!
# Proofs/Encoding — the bytes of a text, and their lines

Bytes are a text when they are its encoding (`decode?_eq_some_iff`).  In an encoding a byte below
`128` stands for the character with its number and for nothing else, so line ends are where they
are in the text: **the lines of the bytes are the encodings of the lines of the text**
(`lines_of_decode?`).
-/

namespace Mnemonic

/-! ## Encodings -/

/-- The UTF-8 encoding of some characters. -/
def encode (cs : List Char) : Bytes := cs.flatMap String.utf8EncodeChar

@[simp] theorem encode_nil : encode [] = [] := rfl

@[simp] theorem encode_cons (c : Char) (cs : List Char) :
    encode (c :: cs) = String.utf8EncodeChar c ++ encode cs := List.flatMap_cons

/-- **Bytes are a text exactly when they are its encoding.** -/
theorem decode?_eq_some_iff {bytes : Bytes} {text : String} :
    decode? bytes = some text ↔ bytes = encode text.toList := by
  have hencode : bytes = encode text.toList ↔ bytes.toByteArray = text.toByteArray := by
    rw [← List.toByteArray_inj, ← String.utf8Encode_toList]
    rfl
  rw [hencode, decode?, String.fromUTF8?]
  constructor
  · intro h
    split at h
    · rw [← Option.some.inj h]
      rfl
    · cases h
  · intro h
    rw [dif_pos (h ▸ text.isValidUTF8)]
    exact congrArg some (String.toByteArray_inj.1 h)

/-- A byte below `128` stands for the character with its number. -/
theorem toNat_eq_of_mem_utf8EncodeChar {c : Char} {b : UInt8} (h : b ∈ String.utf8EncodeChar c)
    (hb : b.toNat < 128) : c.toNat = b.toNat := by
  revert h
  change _ → c.val.toNat = b.toNat
  fun_cases String.utf8EncodeChar c <;>
    · simp only [List.mem_cons, List.not_mem_nil, or_false, ← UInt8.toNat_inj, UInt8.toNat_ofNat',
        Nat.reducePow]
      omega

/-- No other character has such a byte in its encoding. -/
theorem notMem_utf8EncodeChar {c d : Char} (hd : d.toNat < 128) (h : c ≠ d) :
    UInt8.ofNat d.toNat ∉ String.utf8EncodeChar c := by
  intro hmem
  have hbyte : (UInt8.ofNat d.toNat).toNat = d.toNat := by
    rw [UInt8.toNat_ofNat']
    omega
  have hc := toNat_eq_of_mem_utf8EncodeChar hmem (by omega)
  exact h (Char.toNat_inj.1 (hc.trans hbyte))

/-- A line feed begins an encoding exactly where a line break begins the text. -/
theorem head?_encode_eq_some_iff {cs : List Char} :
    (encode cs).head? = some 0x0A ↔ cs.head? = some '\n' := by
  cases cs with
  | nil => simp
  | cons c cs =>
    by_cases hc : c = '\n'
    · simp [hc, String.utf8EncodeChar]
    · obtain ⟨b, bs, hbs⟩ := List.exists_cons_of_ne_nil (String.utf8EncodeChar_ne_nil (c := c))
      have hlf : (0x0A : UInt8) ∉ b :: bs := hbs ▸ notMem_utf8EncodeChar (by decide) hc
      have hb : b ≠ 0x0A := (List.ne_of_not_mem_cons hlf).symm
      rw [encode_cons, hbs]
      simp [hc, hb]

/-! ## Lines -/

section Lines

variable {α : Type} [DecidableEq α] {cr lf a : α} {as bs : List α}

/-- A symbol that ends no line begins the first one. -/
theorem linesBy_cons (hlf : a ≠ lf) (hcr : ¬ (a = cr ∧ as.head? = some lf)) :
    linesBy cr lf (a :: as) = (a :: (linesBy cr lf as).headD []) :: (linesBy cr lf as).tail := by
  rw [linesBy, if_neg hlf, if_neg hcr]
  cases linesBy cr lf as <;> rfl

/-- So do several such symbols. -/
theorem linesBy_append (hne : as ≠ []) (has : ∀ a ∈ as, a ≠ cr ∧ a ≠ lf) :
    linesBy cr lf (as ++ bs) = (as ++ (linesBy cr lf bs).headD []) :: (linesBy cr lf bs).tail := by
  induction as with
  | nil => exact absurd rfl hne
  | cons a as ih =>
    obtain ⟨⟨hcr, hlf⟩, has⟩ := List.forall_mem_cons.1 has
    rw [List.cons_append, linesBy_cons hlf fun h => hcr h.1]
    by_cases hnil : as = []
    · simp [hnil]
    · simp [ih hnil has]

/-- A line feed ends some line. -/
theorem linesBy_concat_lf_ne_nil : linesBy cr lf (as ++ [lf]) ≠ [] := by
  induction as with
  | nil => simp [linesBy]
  | cons a as ih =>
    rw [List.cons_append, linesBy]
    split
    · exact List.cons_ne_nil _ _
    · split
      · exact ih
      · split <;> exact List.cons_ne_nil _ _

/-- **A line feed separates the lines before it from those after it.** -/
theorem linesBy_append_lf :
    linesBy cr lf (as ++ lf :: bs) = linesBy cr lf (as ++ [lf]) ++ linesBy cr lf bs := by
  induction as with
  | nil => simp [linesBy]
  | cons a as ih =>
    have hhead : (as ++ lf :: bs).head? = (as ++ [lf]).head? := by cases as <;> rfl
    by_cases hlf : a = lf
    · simp [linesBy, hlf, ih]
    by_cases hcr : a = cr ∧ (as ++ [lf]).head? = some lf
    · rw [List.cons_append, List.cons_append, linesBy, linesBy, if_neg hlf, if_neg hlf,
        if_pos hcr, if_pos (hhead ▸ hcr), ih]
    · have hne : linesBy cr lf (as ++ [lf]) ≠ [] := linesBy_concat_lf_ne_nil
      rw [List.cons_append, List.cons_append, linesBy_cons hlf hcr,
        linesBy_cons hlf (hhead ▸ hcr), ih]
      cases h : linesBy cr lf (as ++ [lf])
      · exact absurd h hne
      · rfl

end Lines

/-- What a line feed has ended stays so, whatever follows it. -/
theorem ended_append_lf (as bs : Bytes) :
    Bytes.ended (as ++ 0x0A :: bs) = as ++ 0x0A :: bs.ended := by
  have hreverse : (as ++ 0x0A :: bs).reverse = bs.reverse ++ 0x0A :: as.reverse := by simp
  have hstop : (0x0A :: as.reverse).dropWhile (· != 0x0A) = 0x0A :: as.reverse :=
    List.dropWhile_cons_of_neg (by decide)
  rw [Bytes.ended, Bytes.ended, hreverse, List.dropWhile_append, hstop]
  split
  · rename_i hall
    rw [List.isEmpty_iff.1 hall]
    simp
  · simp

/-- **The lines of an encoding are the encodings of the lines.** -/
theorem linesBy_encode (cs : List Char) :
    Bytes.lines (encode cs) = (linesBy '\r' '\n' cs).map encode := by
  unfold Bytes.lines
  induction cs with
  | nil => rfl
  | cons c cs ih =>
    rw [encode_cons]
    by_cases hlf : c = '\n'
    · subst hlf
      change linesBy 0x0D 0x0A (0x0A :: encode cs) = _
      simp [linesBy, ih]
    by_cases hend : c = '\r' ∧ cs.head? = some '\n'
    · obtain ⟨rfl, hhead⟩ := hend
      change linesBy 0x0D 0x0A (0x0D :: encode cs) = _
      simp [linesBy, ih, hhead, head?_encode_eq_some_iff]
    · -- Neither the character nor its encoding ends a line, so both begin one.
      have hfirst : linesBy 0x0D 0x0A (String.utf8EncodeChar c ++ encode cs) =
          (String.utf8EncodeChar c ++ (linesBy 0x0D 0x0A (encode cs)).headD []) ::
            (linesBy 0x0D 0x0A (encode cs)).tail := by
        by_cases hcr : c = '\r'
        · subst hcr
          refine linesBy_cons (by decide) fun h => hend ⟨rfl, ?_⟩
          exact head?_encode_eq_some_iff.1 h.2
        · refine linesBy_append String.utf8EncodeChar_ne_nil fun b hb => ⟨?_, ?_⟩
          · exact ne_of_mem_of_not_mem hb (notMem_utf8EncodeChar (d := '\r') (by decide) hcr)
          · exact ne_of_mem_of_not_mem hb (notMem_utf8EncodeChar (d := '\n') (by decide) hlf)
      rw [hfirst, ih, linesBy_cons hlf hend]
      cases linesBy '\r' '\n' cs <;> simp

/-- The lines of a text. -/
def textLines (text : String) : List String := (linesBy '\r' '\n' text.toList).map String.ofList

/-- **The lines of bytes that are a text are its lines.** -/
theorem lines_of_decode? {bytes : Bytes} {text : String} (h : decode? bytes = some text) :
    bytes.lines.map decode? = (textLines text).map some := by
  rw [decode?_eq_some_iff.1 h, linesBy_encode, textLines, List.map_map, List.map_map]
  refine List.map_congr_left fun line _ => decode?_eq_some_iff.2 ?_
  rw [String.toList_ofList]

end Mnemonic
