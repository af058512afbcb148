/-!
# Text/Bytes — texts and their bytes

A text takes as many bytes as its UTF-8 encoding is long.  `leading? n cs` cuts `cs` after `n`
bytes; it succeeds exactly where the cut falls between two characters (`leading?_eq_some_iff`).
`decode?` reads bytes as a text.
-/

namespace Mnemonic

/-- The number of bytes of a text. -/
def byteLength (cs : List Char) : Nat := cs.foldl (fun n c => n + c.utf8Size) 0

theorem foldl_utf8Size (n : Nat) (cs : List Char) :
    cs.foldl (fun n c => n + c.utf8Size) n = n + byteLength cs := by
  unfold byteLength
  induction cs generalizing n with
  | nil => rfl
  | cons c cs ih =>
    rw [List.foldl_cons, List.foldl_cons, ih, ih (0 + c.utf8Size)]
    omega

@[simp] theorem byteLength_nil : byteLength [] = 0 := rfl

@[simp] theorem byteLength_cons (c : Char) (cs : List Char) :
    byteLength (c :: cs) = c.utf8Size + byteLength cs := by
  rw [byteLength, List.foldl_cons, foldl_utf8Size, Nat.zero_add]

/-- The leading characters that take exactly `n` bytes, if there are such. -/
def leading? : Nat → List Char → Option (List Char)
  | 0, _ => some []
  | _ + 1, [] => none
  | n + 1, c :: cs =>
      if c.utf8Size ≤ n + 1 then (leading? (n + 1 - c.utf8Size) cs).map (c :: ·) else none

/-- **A cut after `n` bytes succeeds exactly on a character boundary.** -/
theorem leading?_eq_some_iff {n : Nat} {cs p : List Char} :
    leading? n cs = some p ↔ p <+: cs ∧ byteLength p = n := by
  induction cs generalizing n p with
  | nil =>
    cases n with
    | zero => simp [leading?, eq_comm]; rintro rfl; rfl
    | succ n => simp [leading?]; rintro rfl; simp
  | cons c cs ih =>
    cases n with
    | zero =>
      have hc := c.utf8Size_pos
      cases p with
      | nil => simp [leading?]
      | cons d p =>
        have hd := d.utf8Size_pos
        simp [leading?]; omega
    | succ n =>
      cases p with
      | nil => simp [leading?]
      | cons d p =>
        simp only [leading?, byteLength_cons, List.cons_prefix_cons]
        split
        · simp only [Option.map_eq_some_iff, List.cons.injEq, ih]
          constructor
          · rintro ⟨q, ⟨hq, hn⟩, rfl, rfl⟩
            exact ⟨⟨rfl, hq⟩, by omega⟩
          · rintro ⟨⟨rfl, hq⟩, hn⟩
            exact ⟨p, ⟨hq, by omega⟩, rfl, rfl⟩
        · simp only [reduceCtorEq, false_iff, not_and]
          rintro ⟨rfl, _⟩
          omega

/-! ## Bytes from outside -/

/-- Raw bytes, of a file or of standard input. -/
abbrev Bytes := List UInt8

/-- The text that some bytes encode, if they are well-formed UTF-8. -/
def decode? (bytes : Bytes) : Option String := String.fromUTF8? bytes.toByteArray

end Mnemonic
