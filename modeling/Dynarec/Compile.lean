import Dynarec.Host.Codegen
import Dynarec.IR.SSA
import Dynarec.Lift.Block

/-!
# Compilation of a block

The way of a decoded guest block to host code: its function, static single assignment, optimization,
replacement of phis, code generation.
-/

namespace Dynarec

open Code (AddressTable)
open Guest (Block Mode)
open Host (Generated)
open IR (Function OptimizerStats)

/-- A block on every stage of its compilation. The stages after a failed one mean nothing. -/
structure Compilation where
  built : Function
  /-- After construction of static single assignment form. -/
  ssa : Except CompileError Function
  optimizer : OptimizerStats
  /-- Number of phis replaced. -/
  phis : Except CompileError Nat
  /-- What code is generated from. -/
  final : Function
  generated : Generated

namespace Compilation

/-- The rounds of the optimizer, each with the number of operations left at the end. -/
def recordRounds (session : Session) (rounds operations : Nat) : Session :=
  rounds.repeat (·.optimizerRound operations) session

def recordCopies (session : Session) (copies : Except CompileError Nat) : Session :=
  match copies with
  | .ok n => n.repeat Session.phiCopy session
  | .error _ => session

/-- Generate code, unless an earlier stage has failed. -/
def generate (earlier : Except CompileError Unit) (final : Function) (table : AddressTable)
    (session : Session) : Generated :=
  match earlier with
  | .ok () => Host.generate final table session
  | .error e => ⟨.error e, .empty, table, session⟩

/-- Compile a block for a table. -/
def ofBlock (block : Block) (mode : Mode) (options : Lift.Options) (table : AddressTable) :
    Compilation :=
  let built := Lift.function block mode options
  let session := (({} : Session).guestBlock block.opcodes.length block.size).irBuilt
    built.operationCount
  let (constructed, ssa) := IR.SSA.construct built
  let (optimizer, optimized) := ssa.optimize options.tier
  let session := recordRounds session optimizer.rounds optimized.operationCount
  let (phis, final) := IR.SSA.deconstruct optimized
  let session := recordCopies session phis
  { built
    ssa := constructed.map fun _ => ssa
    optimizer
    phis
    final
    generated := generate (constructed *> phis.map fun _ => ()) final table session }

end Compilation

end Dynarec
