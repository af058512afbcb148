/-!
# Text/Cut — a text cut where a run of characters ends

`upTo x` cuts at the first occurrence of a character, `takeWhile` and `dropWhile` where a class of
characters ends.  Each cut is pinned down by its parts (`upTo_eq_some_iff`, `upTo_eq_none_iff`,
`takeWhile_dropWhile_append`).
-/

namespace Mnemonic

/-- **A run of one class, followed by nothing of that class, is cut off exactly.** -/
theorem takeWhile_dropWhile_append {p : Char → Bool} {run rest : List Char}
    (hrun : ∀ c ∈ run, p c = true) (hrest : ∀ c ∈ rest.head?, p c = false) :
    (run ++ rest).takeWhile p = run ∧ (run ++ rest).dropWhile p = rest := by
  rw [List.takeWhile_append_of_pos hrun, List.dropWhile_append_of_pos hrun]
  cases rest with
  | nil => simp
  | cons c cs => simp [hrest c rfl]

/-- What follows a run of a class does not start with that class. -/
theorem eq_false_of_mem_head?_dropWhile {p : Char → Bool} {cs : List Char} {c : Char}
    (h : c ∈ (cs.dropWhile p).head?) : p c = false := by
  have hd := List.head?_dropWhile_not p cs
  rw [Option.mem_def.1 h] at hd
  exact hd

/-- The characters before the first `x`, and those after it if it occurs. -/
def upTo (x : Char) (cs : List Char) : List Char × Option (List Char) :=
  (cs.takeWhile (· != x), (cs.dropWhile (· != x)).tail?)

/-- The first part has no `x`, and the text goes on behind it with the `x`, if there is one. -/
theorem append_dropWhile_of_upTo {x : Char} {cs body : List Char} {rest? : Option (List Char)}
    (h : upTo x cs = (body, rest?)) :
    body ++ cs.dropWhile (· != x) = cs ∧ x ∉ body ∧ (cs.dropWhile (· != x)).tail? = rest? := by
  obtain ⟨rfl, rfl⟩ := Prod.mk.inj h
  refine ⟨List.takeWhile_append_dropWhile, fun hx => ?_, rfl⟩
  simpa using List.all_eq_true.1 List.all_takeWhile x hx

/-- **With an occurrence, the two parts and the character between them are the text.** -/
theorem upTo_eq_some_iff {x : Char} {cs body rest : List Char} :
    upTo x cs = (body, some rest) ↔ cs = body ++ x :: rest ∧ x ∉ body := by
  constructor
  · intro h
    obtain ⟨happ, hx, hrest⟩ := append_dropWhile_of_upTo h
    refine ⟨?_, hx⟩
    cases hd : cs.dropWhile (· != x) with
    | nil => rw [hd] at hrest; cases hrest
    | cons y ys =>
      have hy := eq_false_of_mem_head?_dropWhile (p := (· != x)) (show y ∈ _ by rw [hd]; rfl)
      rw [hd] at happ hrest
      rw [← happ, Option.some.inj hrest, show y = x by simpa using hy]
  · rintro ⟨rfl, hx⟩
    obtain ⟨ht, hd⟩ := takeWhile_dropWhile_append (p := (· != x))
      (fun c (hc : c ∈ body) => bne_iff_ne.2 (ne_of_mem_of_not_mem hc hx))
      (fun c (hc : c ∈ (x :: rest).head?) => by simp_all)
    rw [upTo, ht, hd, List.tail?_cons]

/-- **Without an occurrence the first part is the whole text.** -/
theorem upTo_eq_none_iff {x : Char} {cs body : List Char} :
    upTo x cs = (body, none) ↔ cs = body ∧ x ∉ body := by
  constructor
  · intro h
    obtain ⟨happ, hx, hrest⟩ := append_dropWhile_of_upTo h
    refine ⟨?_, hx⟩
    cases hd : cs.dropWhile (· != x) with
    | nil => rw [← happ, hd, List.append_nil]
    | cons y ys => rw [hd] at hrest; cases hrest
  · rintro ⟨rfl, hx⟩
    obtain ⟨ht, hd⟩ := takeWhile_dropWhile_append (p := (· != x))
      (fun c (hc : c ∈ cs) => bne_iff_ne.2 (ne_of_mem_of_not_mem hc hx))
      (fun c (hc : c ∈ ([] : List Char).head?) => by cases hc)
    rw [List.append_nil] at ht hd
    rw [upTo, ht, hd, List.tail?_nil]

end Mnemonic
