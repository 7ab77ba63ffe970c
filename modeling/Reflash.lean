import Reflash.Main
import Reflash.Proofs.Assurance
import Reflash.Proofs.CommandLine.BackingFile
import Reflash.Proofs.Database
import Reflash.Proofs.Emulator.Abort
import Reflash.Proofs.Emulator.Accumulation
import Reflash.Proofs.Emulator.Alignment
import Reflash.Proofs.Emulator.Erasure
import Reflash.Proofs.Emulator.Footprint
import Reflash.Proofs.Emulator.Immunity
import Reflash.Proofs.Emulator.Paranoia
import Reflash.Proofs.Emulator.Protection
import Reflash.Proofs.Emulator.Reference
import Reflash.Proofs.Emulator.Rewriting
import Reflash.Proofs.Emulator.RoundTrip
import Reflash.Proofs.Emulator.Snapshot
import Reflash.Proofs.Emulator.Verdict
import Reflash.Proofs.Execution.Counters
import Reflash.Proofs.Execution.Windows
import Reflash.Proofs.Numeral
import Reflash.Proofs.Plan.Absence
import Reflash.Proofs.Plan.Coverage
import Reflash.Proofs.Plan.Renaming
import Reflash.Proofs.Plan.Tightness
import Reflash.Proofs.Poll
import Reflash.Proofs.Progress
import Reflash.Proofs.RangeText
