import Dynarec.Host.Listing
import Dynarec.Main
import Dynarec.Proofs.Code.ArenaGaps
import Dynarec.Proofs.Code.RangeRemoval
import Dynarec.Proofs.Guest.MemoryHistory
import Dynarec.Proofs.Machine.FailedCompilation
import Dynarec.Proofs.Machine.Interrupts
import Dynarec.Proofs.Compile.PreciseFaults
import Dynarec.Proofs.Host.CodePreservation
import Dynarec.Proofs.IR.PhiRemoval
import Dynarec.Proofs.IR.DeadCode
import Dynarec.Proofs.Compile.StrictForm
import Dynarec.Proofs.Lift.Bitfields
import Dynarec.Proofs.Lift.ConditionalExecution
import Dynarec.Proofs.IR.FlowAnalyses
