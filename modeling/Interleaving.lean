import Interleaving.Keyed.Lemmas
import Interleaving.Json.Reader
import Interleaving.Engine
import Interleaving.Tabulated
import Interleaving.Settings.Format
import Interleaving.Program.Format
import Interleaving.Proofs.Reordering
import Interleaving.Proofs.Runs
import Interleaving.Proofs.Clocks
import Interleaving.Proofs.Coverage
import Interleaving.Proofs.Repetition
import Interleaving.Proofs.Faithful
import Interleaving.Proofs.Reports
import Interleaving.Proofs.Covering
import Interleaving.Proofs.Reversals
import Interleaving.Proofs.Termination
import Interleaving.Proofs.Locks
import Interleaving.Proofs.Excursions
import Interleaving.Proofs.Settling
import Interleaving.Proofs.Moments
import Interleaving.Proofs.Cutoffs
import Interleaving.Proofs.CoveredRounds
import Interleaving.Proofs.Completion
import Interleaving.Proofs.KeptEdges
import Interleaving.Proofs.Accounts
import Interleaving.Proofs.Replays
import Interleaving.Proofs.Exclusion
import Interleaving.Proofs.Enumeration
import Interleaving.Proofs.Marks
import Interleaving.Proofs.Draws
import Interleaving.Proofs.Pruning
import Interleaving.Proofs.Reloading
import Interleaving.Proofs.Payloads
