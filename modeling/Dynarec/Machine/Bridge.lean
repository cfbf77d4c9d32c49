import Dynarec.IR.Run
import Dynarec.Machine.Code

/-!
# Calls from generated code

What the host does when generated code calls it. A failure is kept for later and stops the thread;
generated code looks at the thread after each call and leaves if it was stopped.
-/

namespace Dynarec.Machine

open Code (Compiled)
open Guest (AccessSize)

variable {σ : Type} (sup : Supervisor σ)

/-- Keep a failure, unless there is one already, and stop the thread. -/
def fail (m : Machine σ) (e : RunError) : Machine σ :=
  { m with fault := m.fault <|> some e }.mapThread Thread.markStopped

/-- A guest load; one that fails yields zero. -/
def load (m : Machine σ) (size : AccessSize) (address : UInt64) : UInt64 × Machine σ :=
  match sup.permit address size.bytes false with
  | .error e => (0, m.fail (.memory e))
  | .ok () =>
    match m.read sup address size with
    | (.ok value, m) => (value, m)
    | (.error e, m) => (0, m.fail (.memory e))

def store (m : Machine σ) (size : AccessSize) (address value : UInt64) : Machine σ :=
  match sup.permit address size.bytes true with
  | .error e => m.fail (.memory e)
  | .ok () =>
    match m.write address (Guest.toBytes value size.bytes) with
    | (.ok (), m) => m
    | (.error e, m) => m.fail (.memory e)

def readCounter (m : Machine σ) : UInt64 × Machine σ :=
  let (value, clock) := m.clock.read
  (value, { m with clock })

/-- Start a new interval and serve an interrupt request; whether the thread goes on. -/
def checkSynchronization (m : Machine σ) : Bool × Machine σ :=
  let (requested, thread) := m.thread.resetSync.takeInterrupt
  let m := { m with thread }
  let m := if requested && m.thread.isRunning then sup.interrupt m else m
  (m.thread.isRunning, m)

/-- Code to go on with at `pc`. Without it the thread is stopped. -/
def codeFor? (m : Machine σ) (pc : UInt64) : Option Compiled × Machine σ :=
  match m.resolve sup pc with
  | (.ok c, m) => (some c, m)
  | (.error e, m) => (none, m.fail e)

/-- Bytes made invalid by one cache maintenance instruction. -/
def lineSize : UInt64 := 64

def invalidateLine (m : Machine σ) (address : UInt64) : Machine σ :=
  (m.invalidate (address / lineSize * lineSize) lineSize).2

def enqueueRejit (m : Machine σ) (address : UInt64) : Machine σ :=
  m.mapRecompiler (·.enqueueRejit address)

/-- Count a call of the code at `guest`, and have it compiled again if it is called often. -/
def countCall (m : Machine σ) (counter guest threshold : UInt64) : Machine σ :=
  let (reached, recompiler) := m.recompiler.countCall counter threshold
  let m := { m with recompiler }
  if reached then m.enqueueRejit guest else m

/-- The machine as generated code sees it. -/
def native : IR.Native (Machine σ) where
  context m := m.thread.context
  mapContext g m := m.mapContext g
  load size address m := m.load sup size address
  store size address value m := m.store sup size address value
  readCounter m := m.readCounter
  readFrequency m := (m.clock.frequency, m)
  supervisorCall := sup.supervisorCall
  breakpoint := sup.breakpoint
  undefined := sup.undefined
  invalidateLine address m := m.invalidateLine address
  countCall counter guest threshold m := m.countCall counter guest threshold

end Dynarec.Machine
