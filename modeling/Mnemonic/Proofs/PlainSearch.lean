import Mathlib.Data.List.Infix
import Mathlib.Data.List.Sort
import Mnemonic.Proofs.LongestMatch

/-!
# Proofs/PlainSearch — the search by bytes is the plain search by characters

The plain search walks the non-empty starts of a text, from the whole text down to its first
character (`starts`), and takes the first that names an instruction.  The catalog's search cuts the
text at bytes instead, and begins where the longest alias ends.

What it cuts off (`slices`) are the starts of no more bytes than that, in the same order
(`slices_eq_filter_starts`): a cut inside a character leaves nothing.  A longer start names
nothing, so both searches end alike (`longestAbbreviation?_eq_plain`).
-/

namespace Mnemonic

variable {text w : List Char} {n : Nat}

/-! ## Starts -/

/-- The non-empty starts of a text, from the whole text down to its first character. -/
def starts (text : List Char) : List (List Char) := text.inits.tail.reverse

theorem starts_cons (c : Char) (cs : List Char) :
    starts (c :: cs) = (starts cs).map (c :: ·) ++ [[c]] := by
  have hinits : cs.inits = [] :: cs.inits.tail := by cases cs <;> simp
  rw [starts, List.inits_cons, List.tail_cons, hinits, List.map_cons, List.reverse_cons,
    ← List.map_reverse]
  rfl

theorem mem_starts_iff : w ∈ starts text ↔ w <+: text ∧ w ≠ [] := by
  induction text generalizing w with
  | nil => simp [starts]
  | cons c cs ih =>
    rw [starts_cons]
    cases w with
    | nil => simp
    | cons d ds =>
      simp only [List.mem_append, List.mem_map, ih, List.mem_singleton, List.cons.injEq,
        List.cons_prefix_cons]
      constructor
      · rintro (⟨v, ⟨hv, -⟩, rfl, rfl⟩ | ⟨rfl, rfl⟩)
        · simp [hv]
        · simp
      · rintro ⟨⟨rfl, hds⟩, -⟩
        by_cases hne : ds = []
        · exact .inr ⟨rfl, hne⟩
        · exact .inl ⟨ds, ⟨hds, hne⟩, rfl, rfl⟩

/-- Whether a text takes more bytes than another. -/
def Longer (v w : List Char) : Prop := byteLength w < byteLength v

instance : Std.Irrefl Longer := ⟨fun v => Nat.lt_irrefl (byteLength v)⟩

instance : Std.Antisymm Longer := ⟨fun _ _ h h' => absurd h (Nat.lt_asymm h')⟩

/-- The starts come longest first. -/
theorem pairwise_starts (text : List Char) : (starts text).Pairwise Longer := by
  induction text with
  | nil => simp [starts]
  | cons c cs ih =>
    rw [starts_cons, List.pairwise_append, List.pairwise_map]
    refine ⟨ih.imp fun h => ?_, List.pairwise_singleton _ _, ?_⟩
    · simpa [Longer] using h
    · simp only [List.mem_map, List.mem_singleton, mem_starts_iff]
      rintro _ ⟨v, ⟨-, hne⟩, rfl⟩ _ rfl
      simpa [Longer] using byteLength_pos_iff.2 hne

/-! ## Slices -/

/-- What is cut off a text after `n`, …, `1` bytes, in this order; a cut inside a character leaves
nothing. -/
def slices (text : List Char) : Nat → List (List Char)
  | 0 => []
  | n + 1 => (leading? (n + 1) text).toList ++ slices text n

theorem mem_slices_iff : w ∈ slices text n ↔ w <+: text ∧ w ≠ [] ∧ byteLength w ≤ n := by
  induction n with
  | zero =>
    rw [← byteLength_pos_iff, slices]
    simp
    omega
  | succ n ih =>
    rw [slices, List.mem_append, ih, Option.mem_toList, leading?_eq_some_iff, ← byteLength_pos_iff]
    constructor
    · rintro (⟨hpre, hlen⟩ | ⟨hpre, hpos, hle⟩)
      · exact ⟨hpre, by omega, by omega⟩
      · exact ⟨hpre, hpos, by omega⟩
    · rintro ⟨hpre, hpos, hle⟩
      rcases Nat.lt_or_eq_of_le hle with hlt | heq
      · exact .inr ⟨hpre, hpos, by omega⟩
      · exact .inl ⟨hpre, heq⟩

/-- The slices come longest first. -/
theorem pairwise_slices (text : List Char) (n : Nat) : (slices text n).Pairwise Longer := by
  induction n with
  | zero => exact List.Pairwise.nil
  | succ n ih =>
    rw [slices, List.pairwise_append]
    refine ⟨?_, ih, ?_⟩
    · cases leading? (n + 1) text <;> simp
    · intro v hv w hw
      have hlen := (leading?_eq_some_iff.1 (Option.mem_toList.1 hv)).2
      have hle := (mem_slices_iff.1 hw).2.2
      simp only [Longer]
      omega

/-- **The slices are the starts that are not too long**, in the same order. -/
theorem slices_eq_filter_starts (text : List Char) (n : Nat) :
    slices text n = (starts text).filter (byteLength · ≤ n) := by
  refine (pairwise_slices text n).eq_of_mem_iff ((pairwise_starts text).filter _) fun w => ?_
  simp [mem_slices_iff, mem_starts_iff, and_assoc]

/-- A cut leaves something exactly on the boundaries between characters. -/
theorem isSome_leading?_iff {text : String} :
    (leading? n text.toList).isSome ↔ (⟨n⟩ : String.Pos.Raw).IsValid text := by
  rw [String.Pos.Raw.isValid_iff_exists_take_toList, Option.isSome_iff_exists]
  constructor
  · rintro ⟨w, hw⟩
    obtain ⟨hpre, rfl⟩ := leading?_eq_some_iff.1 hw
    refine ⟨w.length, ?_⟩
    rw [← List.prefix_iff_eq_take.1 hpre, byteLength_eq_utf8ByteSize]
  · rintro ⟨k, hk⟩
    rw [← byteLength_eq_utf8ByteSize] at hk
    exact ⟨_, leading?_eq_some_iff.2 ⟨List.take_prefix k _, hk.symm⟩⟩

/-! ## The two searches -/

namespace Catalog

variable {C : Catalog}

/-- The search looks at the slices, one after the other. -/
theorem longestWithin?_eq_findSome? (C : Catalog) (text : List Char) (n : Nat) :
    C.longestWithin? text n = (slices text n).findSome? C.abbreviation? := by
  induction n with
  | zero => rfl
  | succ n ih =>
    rw [longestWithin?, slices, List.findSome?_append, ← ih]
    rcases leading? (n + 1) text with _ | w
    · simp
    · rcases h : C.abbreviation? w with _ | a <;> simp [h]

/-- Leaving out what names nothing changes no search. -/
theorem findSome?_filter_abbreviation? {p : List Char → Bool} {ws : List (List Char)}
    (h : ∀ w ∈ ws, p w = false → C.abbreviation? w = none) :
    (ws.filter p).findSome? C.abbreviation? = ws.findSome? C.abbreviation? := by
  induction ws with
  | nil => rfl
  | cons w ws ih =>
    have hws := ih fun v hv => h v (List.mem_cons_of_mem w hv)
    by_cases hp : p w = true
    · rw [List.filter_cons_of_pos hp, List.findSome?_cons, List.findSome?_cons, hws]
    · have hw := h w List.mem_cons_self (Bool.eq_false_iff.2 hp)
      rw [List.filter_cons_of_neg hp, List.findSome?_cons, hw, hws]

/-- The search looks at the slices down from the end of the longest alias or of the text. -/
theorem longestAbbreviation?_eq_findSome? (C : Catalog) (text : String) :
    C.longestAbbreviation? text.toList =
      (slices text.toList (min C.maxAliasLength text.utf8ByteSize)).findSome? C.abbreviation? := by
  rw [longestAbbreviation?, longestWithin?_eq_findSome?, byteLength_toList]

/-- **A start that names something is among the slices.** -/
theorem Names.mem_slices {text : String} {i : Instruction} (h : C.Names w i)
    (hw : w ∈ starts text.toList) :
    w ∈ slices text.toList (min C.maxAliasLength text.utf8ByteSize) := by
  obtain ⟨hpre, hne⟩ := mem_starts_iff.1 hw
  have hlen := byteLength_le_of_prefix hpre
  rw [byteLength_toList] at hlen
  exact mem_slices_iff.2 ⟨hpre, hne, Nat.le_min.2 ⟨h.byteLength_le, hlen⟩⟩

end Catalog

/-- **The search by bytes is the plain search by characters**: it answers as the walk through all
non-empty starts of the text does, longest first.  It begins at the end of the longest alias or of
the text, wherever this falls, and passes over no start that names something; it cuts exactly on
the boundaries between characters; and what it answers with ends on one of these, after at least
one byte. -/
theorem longestAbbreviation?_eq_plain (C : Catalog) (text : String) :
    C.longestAbbreviation? text.toList = (starts text.toList).findSome? C.abbreviation? ∧
    C.longestAbbreviation? text.toList =
      (slices text.toList (min C.maxAliasLength text.utf8ByteSize)).findSome? C.abbreviation? ∧
    (∀ w ∈ starts text.toList, ∀ i, C.Names w i →
      w ∈ slices text.toList (min C.maxAliasLength text.utf8ByteSize)) ∧
    (∀ n, (leading? n text.toList).isSome ↔ (⟨n⟩ : String.Pos.Raw).IsValid text) ∧
    ∀ a, C.longestAbbreviation? text.toList = some a →
      a.byteLength = (String.ofList a.spelling).utf8ByteSize ∧ 0 < a.byteLength ∧
        a.byteLength ≤ text.utf8ByteSize ∧ (⟨a.byteLength⟩ : String.Pos.Raw).IsValid text := by
  refine ⟨?_, C.longestAbbreviation?_eq_findSome? text, fun w hw i hi => hi.mem_slices hw,
    fun n => isSome_leading?_iff, fun a ha => ?_⟩
  · rw [C.longestAbbreviation?_eq_findSome? text, slices_eq_filter_starts]
    refine Catalog.findSome?_filter_abbreviation? fun w hw hlong => ?_
    -- A start that is filtered out is none of the slices, so it cannot name anything.
    rcases hfound : C.abbreviation? w with _ | a
    · rfl
    · have hnames : C.Names w a.instruction := (Catalog.abbreviation?_eq_some.1 hfound).2
      have hle := (mem_slices_iff.1 (hnames.mem_slices hw)).2.2
      exact absurd hle (of_decide_eq_false hlong)
  · obtain ⟨hpre, hne, -⟩ := Catalog.longestAbbreviation?_spelling ha
    have hlen := byteLength_le_of_prefix hpre
    rw [byteLength_toList] at hlen
    refine ⟨byteLength_eq_utf8ByteSize a.spelling, byteLength_pos_iff.2 hne, hlen, ?_⟩
    exact isSome_leading?_iff.1 (Option.isSome_of_eq_some (leading?_eq_some_iff.2 ⟨hpre, rfl⟩))

/-- The longest alias would end inside the first lambda. -/
theorem longestAbbreviation?_eq_plain_lambda :
    (starts "andλλ".toList).findSome? (⟨[⟨"∧", ["anda"]⟩]⟩ : Catalog).abbreviation? =
        some ⟨"and".toList, ⟨"∧", ["anda"]⟩⟩ ∧
      ¬ (⟨4⟩ : String.Pos.Raw).IsValid "andλλ" ∧ (⟨3⟩ : String.Pos.Raw).IsValid "andλλ" := by
  obtain ⟨hplain, -, -, hcut, hanswer⟩ :=
    longestAbbreviation?_eq_plain ⟨[⟨"∧", ["anda"]⟩]⟩ "andλλ"
  have hfound : (⟨[⟨"∧", ["anda"]⟩]⟩ : Catalog).longestAbbreviation? "andλλ".toList =
      some ⟨"and".toList, ⟨"∧", ["anda"]⟩⟩ := by decide +kernel
  refine ⟨hplain.symm.trans hfound, ?_, (hanswer _ hfound).2.2.2⟩
  rw [← hcut]
  decide +kernel

end Mnemonic
