import Mnemonic.Catalog.Basic

/-!
# Catalog/Standard — the built-in instruction table

The vocabulary of the glyph language, in the order in which the table is printed.  Resolution never
looks at that order.
-/

namespace Mnemonic.Catalog

/-- Declarations. -/
def declarations : List Instruction :=
  [⟨"⟼", ["fun", "declare"]⟩]

/-- Counting, logic and duplication. -/
def logic : List Instruction :=
  [⟨"◿", ["modulo"]⟩,
   ⟨"⍟", ["count"]⟩,
   ⟨"⁁", ["all"]⟩,
   ⟨"˙", ["2dup"]⟩,
   ⟨"⊻", ["xor"]⟩,
   ⟨"∧", ["and"]⟩,
   ⟨"∨", ["or"]⟩,
   ⟨"℀", ["accuracy"]⟩]

/-- Conversions between number and string types. -/
def casts : List Instruction :=
  [⟨"⑀", ["makefraction"]⟩,
   ⟨"ℚ", ["castfraction"]⟩,
   ⟨"𝕐", ["caststring"]⟩,
   ⟨"ℝ", ["castreal"]⟩,
   ⟨"ℤ", ["castinteger"]⟩]

/-- Files and line breaks. -/
def inputOutput : List Instruction :=
  [⟨"↪", ["newline", "nl"]⟩,
   ⟨"⇲", ["readfile"]⟩,
   ⟨"⇱", ["writefile"]⟩]

/-- Arrangement and size. -/
def structural : List Instruction :=
  [⟨"⬡", ["fragment"]⟩,
   ⟨"≡", ["dearray"]⟩,
   ⟨"⊓", ["bracket"]⟩,
   ⟨"⊕", ["group"]⟩,
   ⟨"⊞", ["table"]⟩,
   ⟨"⍞", ["separate"]⟩,
   ⟨"◫", ["split"]⟩,
   ⟨"↧", ["minimum"]⟩,
   ⟨"↥", ["maximum"]⟩,
   ⟨"⍤", ["assert"]⟩]

/-- Comparisons and negation. -/
def comparisons : List Instruction :=
  [⟨">=", ["gte", "greaterequal"]⟩,
   ⟨">", ["gt", "greater"]⟩,
   ⟨"<=", ["lte", "lessequal"]⟩,
   ⟨"<", ["lt", "less"]⟩,
   ⟨"!=", ["neq", "notequal"]⟩,
   ⟨"=", ["eq", "equal"]⟩,
   ⟨"¯", ["negate"]⟩,
   ⟨"¬", ["not"]⟩]

/-- Constants. -/
def constants : List Instruction :=
  [⟨"♮", ["nan"]⟩,
   ⟨"⊥", ["false"]⟩,
   ⟨"⊤", ["true"]⟩]

/-- Operations on arrays. -/
def arrays : List Instruction :=
  [⟨"fold", ["fold"]⟩,
   ⟨"∺", ["distribute"]⟩,
   ⟨"⊟", ["couple"]⟩,
   ⟨"⌖", ["exact"]⟩,
   ⟨"⌕", ["find"]⟩,
   ⟨"▽", ["keep"]⟩,
   ⟨"⊙", ["dip"]⟩,
   ⟨"∩", ["both"]⟩,
   ⟨"∞", ["inf"]⟩,
   ⟨"⚂", ["rand"]⟩,
   ⟨"τ", ["tau"]⟩,
   ⟨"η", ["eta"]⟩,
   ⟨"π", ["pi"]⟩,
   ⟨"~", ["trace"]⟩,
   ⟨"⍖", ["sortdesc"]⟩,
   ⟨"⍏", ["sortasc"]⟩,
   ⟨"⍉", ["transpose"]⟩,
   ⟨"⋯", ["enumerate"]⟩,
   ⟨"□", ["box"]⟩,
   ⟨"⊔", ["unbox"]⟩,
   ⟨"⊝", ["deduplicate"]⟩,
   ⟨"⊚", ["where"]⟩,
   ⟨"⇡", ["range"]⟩,
   ⟨"⊢", ["first"]⟩,
   ⟨"⧻", ["length"]⟩,
   ⟨"⚙", ["typeof"]⟩,
   ⟨"∅", ["emptyset"]⟩,
   ⟨"↯", ["reshape"]⟩,
   ⟨"⍥", ["repeat"]⟩,
   ⟨"△", ["shape"]⟩,
   ⟨"∘", ["push"]⟩,
   ⟨"∊", ["member"]⟩,
   ⟨"⊗", ["indexof"]⟩,
   ⟨"⊡", ["pick"]⟩,
   ⟨"⊏", ["select"]⟩,
   ⟨"⊂", ["join"]⟩,
   ⟨"≅", ["match"]⟩,
   ⟨"♭", ["deshape"]⟩,
   ⟨"⇌", ["reverse"]⟩,
   ⟨"↻", ["rot"]⟩,
   ⟨"↘", ["drop"]⟩,
   ⟨"↙", ["take"]⟩,
   ⟨"÷", ["divide"]⟩,
   ⟨"×", ["multiply"]⟩,
   ⟨"+", ["add"]⟩,
   ⟨"-", ["subtract"]⟩,
   ⟨"∵", ["each"]⟩,
   ⟨"∘", ["noop", "nop"]⟩,
   ⟨"⊃", ["fork"]⟩]

/-- Stack and control. -/
def control : List Instruction :=
  [⟨"!", ["call"]⟩,
   ⟨":", ["swap"]⟩,
   ⟨".", ["duplicate"]⟩,
   ⟨",", ["over"]⟩,
   ⟨"/", ["reduce"]⟩,
   ⟨"\\", ["scan"]⟩,
   ⟨"?", ["if"]⟩]

/-- The built-in catalog. -/
def standard : Catalog :=
  ⟨declarations ++ logic ++ casts ++ inputOutput ++ structural ++ comparisons ++ constants ++
    arrays ++ control⟩

/-- Whether a catalog has the rows of the built-in one, in the same order. -/
def isStandard (C : Catalog) : Bool := C == standard

end Mnemonic.Catalog
