import Carrot.Build
import Carrot.Main
import Carrot.Proofs.Layout.Unambiguous
import Carrot.Proofs.Parsing.Brackets
import Carrot.Proofs.Parsing.Fillers
import Carrot.Proofs.Parsing.Precedence
import Carrot.Proofs.Parsing.Warnings
import Carrot.Proofs.Resolution.Clean
import Carrot.Proofs.Resolution.Fields
import Carrot.Proofs.Resolution.Lexical
import Carrot.Proofs.Resolution.Notes
import Carrot.Proofs.Resolution.Passes
import Carrot.Proofs.Resolution.Severity
import Carrot.Proofs.Resolution.WellBound
import Carrot.Proofs.Artifacts.Forms
import Carrot.Proofs.Automaton.Expected
import Carrot.Proofs.CommandLine
import Carrot.Proofs.History
import Carrot.Proofs.Offences
