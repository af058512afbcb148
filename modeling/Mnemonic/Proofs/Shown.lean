import Mnemonic.Proofs.Lexeme
import Mnemonic.Translation

/-!
# Proofs/Shown — what is printed of a row of tokens

A translation and a listing print the texts and the kinds of tokens, never their places: both are
functions of what the tokens show.
-/

namespace Mnemonic

namespace Token

/-- The entry of a token listing for a token of this kind and text. -/
def entry (x : Kind × String) : String := "Token(" ++ x.1.label ++ ", \"" ++ x.2 ++ "\")"

theorem display_eq_entry (t : Token) : t.display = entry t.shown := rfl

end Token

theorem assemble_eq_join_shown (ts : List Token) :
    assemble ts = String.join ((ts.map Token.shown).map Prod.snd) := by
  rw [assemble, List.map_map]
  rfl

theorem listing_eq_intercalate_shown (ts : List Token) :
    listing ts = "\n".intercalate ((ts.map Token.shown).map Token.entry) := by
  rw [listing, List.map_map, funext Token.display_eq_entry]
  rfl

/-- Tokens that show the same are translated to the same text. -/
theorem assemble_congr {ts us : List Token} (h : us.map Token.shown = ts.map Token.shown) :
    assemble us = assemble ts := by
  rw [assemble_eq_join_shown, assemble_eq_join_shown, h]

end Mnemonic
