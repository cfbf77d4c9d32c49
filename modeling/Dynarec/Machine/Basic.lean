import Dynarec.Machine.Recompiler
import Dynarec.Machine.Thread

/-!
# The machine

A guest thread on a memory, with the recompiler that runs it. What the guest cannot do alone is
left to a supervisor, whose own state is part of the machine.
-/

namespace Dynarec

open Guest (AccessSize Delivery Memory MemoryError)

/-- The counter that the guest can read: every reading moves it on. -/
structure Clock where
  value : UInt64
  step : UInt64
  frequency : UInt64
deriving DecidableEq, Repr

def Clock.read (c : Clock) : UInt64 × Clock :=
  (c.value, { c with value := c.value + c.step })

structure Machine (σ : Type) where
  memory : Memory
  recompiler : Recompiler
  thread : Thread
  clock : Clock
  /-- The first failure of the current run. -/
  fault : Option RunError
  /-- State of the supervisor. -/
  state : σ

/-- What stands around the guest. -/
structure Supervisor (σ : Type) where
  supervisorCall : (pc : UInt64) → (payload : UInt32) → Machine σ → Machine σ
  breakpoint : (pc : UInt64) → (payload : UInt32) → Machine σ → Machine σ
  undefined : (pc : UInt64) → (opcode : UInt32) → Machine σ → Machine σ
  interrupt : Machine σ → Machine σ
  /-- Whether the guest may access a range. -/
  permit : (address : UInt64) → (size : Nat) → (write : Bool) → Except MemoryError Unit
  /-- Writes that follow a successful read at an address. -/
  afterRead : (address : UInt64) → σ → List (UInt64 × List UInt8) × σ

namespace Machine

variable {σ : Type}

/-- A machine whose recompiler hears of memory events if the memory has handlers. -/
def ofConfig (config : Config) (memory : Memory) (clock : Clock) (state : σ) :
    Except RunError (Machine σ) := do
  let recompiler ← Recompiler.ofConfig config
  return {
    memory
    recompiler
    thread := .ofMode config.mode config.syncInterval
    clock
    fault := none
    state }

variable (m : Machine σ)

def config : Config := m.recompiler.config

def mapThread (g : Thread → Thread) : Machine σ := { m with thread := g m.thread }

def mapContext (g : Context → Context) : Machine σ := m.mapThread (·.mapContext g)

def mapRecompiler (g : Recompiler → Recompiler) : Machine σ :=
  { m with recompiler := g m.recompiler }

def newThread : Machine σ :=
  { m with thread := .ofMode m.config.mode m.config.syncInterval }

/-! ### Memory -/

/-- Guest code in a range has changed or is gone. -/
def invalidate (address size : UInt64) : Nat × Machine σ :=
  let (n, recompiler) := m.recompiler.invalidate address size
  (n, { m with recompiler })

def handle (d : Delivery) : Machine σ :=
  match d.event with
  | .unmapped address size | .codeWritten address size =>
    (m.invalidate address size.toUInt64).2

def handleAll (ds : List Delivery) : Machine σ := ds.foldl handle m

def write (address : UInt64) (bytes : List UInt8) : Except MemoryError Unit × Machine σ :=
  match m.memory.write address bytes with
  | (.ok deliveries, memory) => (.ok (), { m with memory }.handleAll deliveries)
  | (.error e, memory) => (.error e, { m with memory })

def unmap (base : UInt64) : Bool × Machine σ :=
  let ((found, deliveries), memory) := m.memory.unmap base
  (found, { m with memory }.handleAll deliveries)

def map (base : UInt64) (size : Nat) (writable : Bool) : Machine σ :=
  { m with memory := m.memory.mapZero base size writable }

/-- Read as the guest does: the supervisor may write after it. -/
def read (sup : Supervisor σ) (address : UInt64) (size : AccessSize) :
    Except MemoryError UInt64 × Machine σ :=
  match m.memory.readValue address size with
  | .error e => (.error e, m)
  | .ok value =>
    let (writes, state) := sup.afterRead address m.state
    (.ok value, writes.foldl (fun m w => (m.write w.1 w.2).2) { m with state })

end Machine

/-- A supervisor that only serves calls: it stops the guest where it cannot go on, and leaves
interrupts and memory alone. -/
def Supervisor.ofCalls {σ : Type}
    (supervisorCall : (pc : UInt64) → (payload : UInt32) → Machine σ → Machine σ) :
    Supervisor σ where
  supervisorCall
  breakpoint _ _ m := m.mapThread Thread.stop
  undefined _ _ m := m.mapThread Thread.stop
  interrupt m := m
  permit _ _ _ := .ok ()
  afterRead _ s := ([], s)

end Dynarec
