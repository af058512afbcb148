/-!
# Instruction — a glyph and the names that stand for it

An instruction of the glyph language is written as its **glyph**, a short symbol, and may be typed
under any of its **aliases**.  A query names the instruction as soon as it starts one alias
(`hasAliasStartingWith_iff`); an alias is never matched in its middle.
-/

namespace Mnemonic

/-- One instruction of the glyph language. -/
structure Instruction where
  /-- The written form, of one or more characters. -/
  glyph : String
  /-- The names it may be typed under, the preferred one first. -/
  aliases : List String
  deriving DecidableEq, Repr, Inhabited

namespace Instruction

/-- The preferred alias; an instruction without aliases is known by its glyph. -/
def name (i : Instruction) : String := i.aliases.head?.getD i.glyph

/-- The line of the instruction table: glyph, tabulator, aliases. -/
def display (i : Instruction) : String := i.glyph ++ "\t" ++ ", ".intercalate i.aliases

/-- Some alias starts with `query`. -/
def hasAliasStartingWith (i : Instruction) (query : String) : Bool :=
  i.aliases.any fun a => a.startsWith query

/-- **A query names an instruction when its characters start those of an alias.** -/
theorem hasAliasStartingWith_iff {i : Instruction} {query : String} :
    i.hasAliasStartingWith query = true ↔ ∃ a ∈ i.aliases, query.toList <+: a.toList := by
  simp only [hasAliasStartingWith, List.any_eq_true, String.startsWith_string_iff]

end Instruction

end Mnemonic
