/-!
# Proofs/Parts — where the parts of a text stand

A text is often given as a list of parts, each with the characters it covers. `Stands f xs before x`
says that `x` is one of them and comes after the text `before`; every place of the whole text lies
in exactly one part (`exists_stands`, `Stands.unique`).
-/

namespace Mnemonic

variable {α : Type} {f : α → List Char}

/-- Whether `x` is one of the parts, each covering the characters `f` gives, after `before`. -/
inductive Stands (f : α → List Char) : List α → List Char → α → Prop
  | head {x : α} {xs : List α} : Stands f (x :: xs) [] x
  | tail {x y : α} {xs : List α} {before : List Char} (h : Stands f xs before y) :
      Stands f (x :: xs) (f x ++ before) y

theorem stands_cons_iff {x y : α} {xs : List α} {before : List Char} :
    Stands f (x :: xs) before y ↔
      before = [] ∧ y = x ∨ ∃ rest, Stands f xs rest y ∧ before = f x ++ rest := by
  constructor
  · intro h
    match h with
    | .head => exact .inl ⟨rfl, rfl⟩
    | .tail hy => exact .inr ⟨_, hy, rfl⟩
  · rintro (⟨rfl, rfl⟩ | ⟨rest, hy, rfl⟩)
    · exact .head
    · exact .tail hy

theorem Stands.mem {xs : List α} {before : List Char} {x : α} (h : Stands f xs before x) :
    x ∈ xs := by
  induction h with
  | head => exact List.mem_cons_self
  | tail _ ih => exact List.mem_cons_of_mem _ ih

/-- A part stands between what is before it and what is after it. -/
theorem Stands.text_eq {xs : List α} {before : List Char} {x : α} (h : Stands f xs before x) :
    ∃ after, xs.flatMap f = before ++ (f x ++ after) := by
  induction h with
  | @head x xs => exact ⟨xs.flatMap f, List.flatMap_cons⟩
  | tail _ ih =>
    obtain ⟨after, hafter⟩ := ih
    exact ⟨after, by rw [List.flatMap_cons, hafter, List.append_assoc]⟩

/-- Where a part ends is inside the text. -/
theorem Stands.length_le {xs : List α} {before : List Char} {x : α} (h : Stands f xs before x) :
    before.length + (f x).length ≤ (xs.flatMap f).length := by
  obtain ⟨after, hafter⟩ := h.text_eq
  rw [hafter, List.length_append, List.length_append]
  omega

/-- **Every place of a text lies in a part.** -/
theorem exists_stands {xs : List α} {o : Nat} (h : o < (xs.flatMap f).length) :
    ∃ before x, Stands f xs before x ∧ before.length ≤ o ∧ o < before.length + (f x).length := by
  induction xs generalizing o with
  | nil => exact absurd h (Nat.not_lt_zero o)
  | cons x xs ih =>
    rw [List.flatMap_cons, List.length_append] at h
    rcases Nat.lt_or_ge o (f x).length with hlt | hge
    · exact ⟨[], x, .head, Nat.zero_le o, by rwa [List.length_nil, Nat.zero_add]⟩
    · obtain ⟨before, y, hy, hle, hlt⟩ := ih (o := o - (f x).length) (by omega)
      refine ⟨f x ++ before, y, .tail hy, ?_, ?_⟩
      · rw [List.length_append]
        omega
      · rw [List.length_append]
        omega

/-- **No place of a text lies in two parts.** -/
theorem Stands.unique {xs : List α} {o : Nat} {before before' : List Char} {x y : α}
    (hx : Stands f xs before x) (hxo : before.length ≤ o ∧ o < before.length + (f x).length)
    (hy : Stands f xs before' y) (hyo : before'.length ≤ o ∧ o < before'.length + (f y).length) :
    before = before' ∧ x = y := by
  induction hx generalizing before' o with
  | @head x xs =>
    obtain ⟨rfl, rfl⟩ | ⟨rest, -, rfl⟩ := stands_cons_iff.1 hy
    · exact ⟨rfl, rfl⟩
    · rw [List.length_append] at hyo
      rw [List.length_nil] at hxo
      omega
  | @tail z x xs before hx ih =>
    rw [List.length_append] at hxo
    obtain ⟨rfl, rfl⟩ | ⟨rest, hrest, rfl⟩ := stands_cons_iff.1 hy
    · rw [List.length_nil] at hyo
      omega
    · rw [List.length_append] at hyo
      obtain ⟨rfl, rfl⟩ := ih (o := o - (f z).length) (by omega) hrest (by omega)
      exact ⟨rfl, rfl⟩

end Mnemonic
