import Mnemonic.Main
import Mnemonic.Proofs.Place
import Mnemonic.Proofs.Operators
import Mnemonic.Proofs.Leading
import Mnemonic.Proofs.Lexeme
import Mnemonic.Proofs.Stream
import Mnemonic.Proofs.Agreement
import Mnemonic.Proofs.TableOrder
import Mnemonic.Proofs.Shown
import Mnemonic.Proofs.Grammar
import Mnemonic.Proofs.Coverage
import Mnemonic.Proofs.Concatenation
import Mnemonic.Proofs.Unfinished
import Mnemonic.Proofs.Policies
import Mnemonic.Proofs.Session
import Mnemonic.Proofs.Spans
import Mnemonic.Proofs.LongestMatch
import Mnemonic.Proofs.Printing
import Mnemonic.Proofs.StandardGlyphs
import Mnemonic.Proofs.FixedPoint
import Mnemonic.Proofs.Layout
import Mnemonic.Proofs.Abbreviations
import Mnemonic.Proofs.Listing
import Mnemonic.Proofs.PlainSearch
import Mnemonic.Proofs.Reach
import Mnemonic.Proofs.Continuation
import Mnemonic.Proofs.Munch
import Mnemonic.Proofs.Locality
import Mnemonic.Proofs.Encoding
import Mnemonic.Proofs.Transcript
import Mnemonic.Proofs.AllOrNothing
import Mnemonic.Proofs.NewRow
import Mnemonic.Proofs.Verdict
import Mnemonic.Proofs.Invariant
