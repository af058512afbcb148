import Mnemonic.Catalog.Basic
import Mnemonic.Text.Bytes

/-!
# Catalog/Resolution — which instruction an abbreviation names

A query **resolves** when exactly one row has an alias that starts with it.  Of a longer text the
longest part that resolves counts: `longestAbbreviation?` cuts the text at every byte from
`maxAliasLength` downwards and takes the first cut that falls between two characters and leaves a
resolving part (`longestAbbreviation?_spelling`).
-/

namespace Mnemonic

/-- What a query stands for in a catalog. -/
inductive Resolution
  /-- No row has an alias that starts with the query. -/
  | notFound
  /-- Exactly one row does. -/
  | unique (i : Instruction)
  /-- Several rows do; the number counts rows, not aliases. -/
  | ambiguous (count : Nat)
  deriving DecidableEq, Repr

/-- The instruction of a unique resolution. -/
def Resolution.instruction? : Resolution → Option Instruction
  | .unique i => some i
  | .notFound => none
  | .ambiguous _ => none

theorem Resolution.instruction?_eq_some {r : Resolution} {i : Instruction} :
    r.instruction? = some i ↔ r = .unique i := by
  cases r <;> simp [instruction?]

/-- A spelling that names one instruction. -/
structure Abbreviation where
  /-- The characters that were typed. -/
  spelling : List Char
  /-- The instruction they name. -/
  instruction : Instruction
  deriving DecidableEq, Repr

/-- The number of bytes that were typed. -/
def Abbreviation.byteLength (a : Abbreviation) : Nat := Mnemonic.byteLength a.spelling

namespace Catalog

/-! ## Queries -/

/-- The rows with an alias that starts with `query`. -/
def matching (C : Catalog) (query : String) : List Instruction :=
  C.rows.filter (·.hasAliasStartingWith query)

/-- What `query` stands for: the number of matching rows decides. -/
def resolve (C : Catalog) (query : String) : Resolution :=
  match C.matching query with
  | [] => .notFound
  | [i] => .unique i
  | i :: j :: is => .ambiguous (i :: j :: is).length

theorem resolve_eq_unique_iff {C : Catalog} {query : String} {i : Instruction} :
    C.resolve query = .unique i ↔ C.matching query = [i] := by
  unfold resolve
  split <;> simp_all

theorem resolve_eq_notFound_iff {C : Catalog} {query : String} :
    C.resolve query = .notFound ↔ C.matching query = [] := by
  unfold resolve
  split <;> simp_all

theorem resolve_eq_ambiguous_iff {C : Catalog} {query : String} {n : Nat} :
    C.resolve query = .ambiguous n ↔ (C.matching query).length = n ∧ 2 ≤ n := by
  unfold resolve
  split <;> simp_all <;> omega

/-! ## The longest resolving part of a text -/

/-- The given characters as an abbreviation, if they resolve. -/
def abbreviation? (C : Catalog) (spelling : List Char) : Option Abbreviation :=
  (C.resolve (String.ofList spelling)).instruction?.map (⟨spelling, ·⟩)

/-- The longest resolving part of `text` among those of `1`, …, `n` bytes. -/
def longestWithin? (C : Catalog) (text : List Char) : Nat → Option Abbreviation
  | 0 => none
  | n + 1 =>
    match (leading? (n + 1) text).bind C.abbreviation? with
    | some a => some a
    | none => C.longestWithin? text n

/-- The longest non-empty part at the start of `text` that resolves. -/
def longestAbbreviation? (C : Catalog) (text : List Char) : Option Abbreviation :=
  C.longestWithin? text (min C.maxAliasLength (byteLength text))

theorem abbreviation?_eq_some {C : Catalog} {w : List Char} {a : Abbreviation} :
    C.abbreviation? w = some a ↔
      a.spelling = w ∧ C.resolve (String.ofList w) = .unique a.instruction := by
  obtain ⟨s, i⟩ := a
  simp only [abbreviation?, Option.map_eq_some_iff, Resolution.instruction?_eq_some,
    Abbreviation.mk.injEq]
  constructor
  · rintro ⟨j, hj, rfl, rfl⟩
    exact ⟨rfl, hj⟩
  · rintro ⟨rfl, h⟩
    exact ⟨i, h, rfl, rfl⟩

/-- The search answers with a resolving part of between `1` and `n` bytes. -/
theorem longestWithin?_eq_some {C : Catalog} {text : List Char} {a : Abbreviation} :
    ∀ {n : Nat}, C.longestWithin? text n = some a →
      a.spelling <+: text ∧ 0 < byteLength a.spelling ∧ byteLength a.spelling ≤ n ∧
        C.resolve (String.ofList a.spelling) = .unique a.instruction
  | 0, h => by simp [longestWithin?] at h
  | n + 1, h => by
    unfold longestWithin? at h
    split at h
    · rename_i b hb
      obtain rfl := Option.some.inj h
      obtain ⟨w, hw, hb⟩ := Option.bind_eq_some_iff.1 hb
      obtain ⟨hpre, hlen⟩ := leading?_eq_some_iff.1 hw
      obtain ⟨rfl, hres⟩ := abbreviation?_eq_some.1 hb
      exact ⟨hpre, by omega, by omega, hres⟩
    · obtain ⟨hpre, hpos, hle, hres⟩ := longestWithin?_eq_some h
      exact ⟨hpre, hpos, by omega, hres⟩

/-- **The answer is a non-empty part of the text, and names its instruction by itself.** -/
theorem longestAbbreviation?_spelling {C : Catalog} {text : List Char} {a : Abbreviation}
    (h : C.longestAbbreviation? text = some a) :
    a.spelling <+: text ∧ a.spelling ≠ [] ∧
      C.resolve (String.ofList a.spelling) = .unique a.instruction := by
  obtain ⟨hpre, hpos, _, hres⟩ := longestWithin?_eq_some h
  refine ⟨hpre, ?_, hres⟩
  rintro he
  simp [he] at hpos

end Catalog

end Mnemonic
