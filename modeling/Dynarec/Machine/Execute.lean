import Dynarec.Machine.Bridge

/-!
# Running the guest

Generated code runs from block to block until a dispatch has to look at the host, cannot be
followed, or the guest is stopped. In between, blocks that are called often are compiled again.
-/

namespace Dynarec.Machine

open Code (Compiled)

variable {σ : Type} (sup : Supervisor σ)

/-- Leave code for `pc` by a dispatch; whether the host was looked at. -/
def dispatchTo (m : Machine σ) (pc : UInt64) : Bool × Machine σ :=
  let (synchronize, context) := m.thread.context.dispatch pc
  let m := m.mapContext fun _ => context
  if synchronize then (true, (m.checkSynchronization sup).2) else (false, m)

/-- Run code and the code it dispatches to; the guest address to go on at. -/
def runCode (bodyFuel : Nat) : (fuel : Nat) → Compiled → Machine σ → Option (UInt64 × Machine σ)
  | 0, _, _ => none
  | fuel + 1, c, m =>
    match c.body.run (native sup) bodyFuel m with
    | none => none
    | some (.exit pc, m) => some (pc, m.mapContext (·.leave pc))
    | some (.dispatch pc, m) =>
      match m.dispatchTo sup pc with
      | (true, m) => some (m.thread.pc, m)
      | (false, m) =>
        if !m.recompiler.table.isValid pc then some (pc, m)
        else match m.codeFor? sup pc with
          | (some next, m) => runCode bodyFuel fuel next m
          | (none, m) => some (m.thread.pc, m)

/-- Run until the thread stops or fails. -/
def runLoop (codeFuel : Nat) : (fuel : Nat) → Machine σ → Option (Except RunError Unit × Machine σ)
  | 0, _ => none
  | fuel + 1, m =>
    match m.resolve sup m.thread.pc with
    | (.error e, m) => some (.error e, m)
    | (.ok c, m) =>
      match runCode sup codeFuel codeFuel c m with
      | none => none
      | some (next, m) =>
        let m := m.mapThread (·.setPc next)
        match m.fault with
        | some e => some (.error e, { m with fault := none })
        | none =>
          if !m.thread.isRunning then some (.ok (), m)
          else
            let background := m.config.tiered && m.config.background
            runLoop codeFuel fuel (if background then m else (m.drain sup).2)

def beginRun (m : Machine σ) (address : UInt64) : Machine σ :=
  let m := { m with fault := none }.mapRecompiler Recompiler.enterDispatch
  m.mapThread fun t => t.beginRun.setPc address

def endRun (m : Machine σ) : Machine σ :=
  (m.mapThread Thread.markStopped).mapRecompiler Recompiler.leaveDispatch

/-- Run the guest from an address until it stops or fails. `none` means that the fuel ran out. -/
def execute (fuel : Nat) (m : Machine σ) (address : UInt64) :
    Option (Except RunError Unit × Machine σ) :=
  (runLoop sup fuel fuel (m.beginRun address)).map fun (result, m) => (result, m.endRun)

end Dynarec.Machine
