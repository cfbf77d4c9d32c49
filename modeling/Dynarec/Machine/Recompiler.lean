import Dynarec.Code.Cache
import Dynarec.Config
import Dynarec.Host.Stub
import Dynarec.Host.Symbol

/-!
# State of the recompiler

The code of a guest, apart from the guest itself. Removing code raises the epoch, so that a
compilation from bytes which have changed meanwhile is noticed. Removed code stays in the arena
until no thread can be running it. Blocks that are called often wait in a queue to be compiled
again.
-/

namespace Dynarec

open Code (AddressTable Arena Cache Compiled InstallOutcome Range)
open IR (Tier)

structure Counters where
  compilations : Nat := 0
  fast : Nat := 0
  optimized : Nat := 0
  /-- Blocks replaced by a better compilation. -/
  rejits : Nat := 0
  /-- Blocks removed. -/
  invalidated : Nat := 0
  /-- Compilations dropped because the address had code already. -/
  installRaces : Nat := 0
  /-- Compilations repeated because guest code changed meanwhile. -/
  staleRetries : Nat := 0
  hostBytes : Nat := 0
deriving DecidableEq, Repr, Inhabited

/-- Blocks that wait to be compiled again, the first one first and each once. -/
structure RejitQueue where
  pending : List UInt64 := []
  shutdown : Bool := false
deriving DecidableEq, Repr, Inhabited

namespace RejitQueue

def enqueue (q : RejitQueue) (address : UInt64) : RejitQueue :=
  if q.shutdown || q.pending.contains address then q
  else { q with pending := q.pending ++ [address] }

/-- Forget all blocks and take no more. -/
def close (_ : RejitQueue) : RejitQueue := ⟨[], true⟩

end RejitQueue

structure Recompiler where
  config : Config
  arena : Arena
  /-- Returns to the host; addresses without code lead to the fill instead. -/
  exitStub : UInt64
  cache : Cache
  epoch : UInt64
  /-- Code that was removed but may still be running. -/
  deferred : List Compiled
  queue : RejitQueue
  /-- Number of threads that may be running code. -/
  dispatching : Nat
  counters : Counters
  /-- Calls counted for each compilation. -/
  calls : Array UInt64

namespace Recompiler

/-- Put a stub into the arena. -/
def placeStub (arena : Arena) (stub : Except Host.EncodingError (List UInt8)) :
    Except RunError (UInt64 × Arena) := do
  let code ← match stub with
    | .ok code => pure code
    | .error e => throw (.compile (.encoding e))
  let (range, arena) ← arena.allocate code
  return (Arena.address range, arena)

def ofConfig (config : Config) : Except RunError Recompiler := do
  let arena := Arena.ofSize config.arenaSize
  let (_, arena) ← placeStub arena Host.Stub.entry
  let (exitStub, arena) ← placeStub arena Host.Stub.exit
  let (fill, arena) ← placeStub arena (Host.Stub.fill Host.HostCall.functionAddress.address)
  return {
    config
    arena
    exitStub
    cache := .ofTable (.ofMode config.mode fill)
    epoch := 0
    deferred := []
    queue := {}
    dispatching := 0
    counters := {}
    calls := #[] }

variable (r : Recompiler)

def table : AddressTable := r.cache.table

def setTable (table : AddressTable) : Recompiler :=
  { r with cache := { r.cache with table } }

/-- Calls counted for a compilation. -/
def callsOf (c : Compiled) : UInt64 := r.calls.getD c.serial 0

/-- Whether the table leads from the guest address of some code to that code. -/
def publishes (c : Compiled) : Bool := r.table.lookup c.guestAddress == some c.host

/-- The code that the table publishes for an address. -/
def published? (pc : UInt64) : Option Compiled :=
  (r.table.lookup pc).bind fun host => (r.cache.get? pc).filter (·.host == host)

/-! ### Removing code -/

/-- Give back the arena range of code that was never installed or is not needed any more. -/
def free (c : Compiled) : Recompiler := { r with arena := r.arena.release c.range }

def defer (removed : List Compiled) : Recompiler :=
  { r with
    deferred := r.deferred ++ removed
    counters := { r.counters with invalidated := r.counters.invalidated + removed.length } }

/-- Remove the code of a guest range; the number of blocks. -/
def invalidate (address size : UInt64) : Nat × Recompiler :=
  let (removed, cache) := r.cache.removeRange address size
  (removed.length, { r with epoch := r.epoch + 1, cache }.defer removed)

/-- Free removed code, unless some thread may be running it; the number of blocks. -/
def reclaim : Nat × Recompiler :=
  if r.dispatching ≠ 0 then (0, r)
  else (r.deferred.length, r.deferred.foldl free { r with deferred := [] })

def clear : Nat × Recompiler :=
  let (removed, cache) := r.cache.clear
  let r := { r with epoch := r.epoch + 1, cache }.defer removed
  (removed.length, r.reclaim.2)

def enterDispatch : Recompiler := { r with dispatching := r.dispatching + 1 }

def leaveDispatch : Recompiler := { r with dispatching := r.dispatching - 1 }

/-! ### The queue -/

def enqueueRejit (address : UInt64) : Recompiler := { r with queue := r.queue.enqueue address }

/-- Count a call of a compilation; whether it is the one that reaches the threshold. -/
def countCall (counter threshold : UInt64) : Bool × Recompiler :=
  let serial := ((counter - Host.counterAddress 0) / 8).toNat
  let before := r.calls.getD serial 0
  (before.toNat == threshold.toNat - 1,
    { r with calls := r.calls.setIfInBounds serial (before + 1) })

/-! ### Placing code -/

/-- Make room for the call counter of a compilation; its number. -/
def newSerial : Nat × Recompiler := (r.calls.size, { r with calls := r.calls.push 0 })

def recordCompilation (tier : Tier) (hostBytes : Nat) : Recompiler :=
  let c := r.counters
  let c := { c with compilations := c.compilations + 1, hostBytes := c.hostBytes + hostBytes }
  { r with
    counters := match tier with
      | .fast => { c with fast := c.fast + 1 }
      | .optimized => { c with optimized := c.optimized + 1 } }

/-- Install a compilation that was begun in epoch `expected`. One that is not installed is
freed. -/
def install (c : Compiled) (expected : UInt64) (force : Bool) : InstallOutcome × Recompiler :=
  match r.cache.install c r.epoch expected force with
  | (.installed c, cache) => (.installed c, { r with cache })
  | (.existing old, cache) =>
    (.existing old,
      { r with
        cache
        counters := { r.counters with installRaces := r.counters.installRaces + 1 } }.free c)
  | (.stale, cache) =>
    (.stale,
      { r with
        cache
        counters := { r.counters with staleRetries := r.counters.staleRetries + 1 } }.free c)

/-- Replace `current` by a better compilation that was begun in epoch `expected`. -/
def upgrade (current better : Compiled) (expected : UInt64) : Bool × Recompiler :=
  if r.epoch ≠ expected then (false, r.free better)
  else match r.cache.replace current better with
    | (true, cache) =>
      (true,
        { r with
          cache
          counters := { r.counters with rejits := r.counters.rejits + 1 }
          deferred := r.deferred ++ [current] })
    | (false, cache) => (false, { r with cache }.free better)

end Recompiler

/-! ### Statistics -/

structure RecompilerStats where
  counters : Counters
  cached : Nat
  deferred : Nat
  arenaLiveBytes : Nat
deriving DecidableEq, Repr

def Recompiler.stats (r : Recompiler) : RecompilerStats :=
  ⟨r.counters, r.cache.size, r.deferred.length, r.arena.liveBytes⟩

open Text in
def RecompilerStats.text (s : RecompilerStats) : String :=
  let c := s.counters
  String.intercalate "\n" [
    "Translator Statistics:",
    "  Translations: " ++ nat c.compilations ++ " (" ++ nat c.fast ++ " fast, " ++
      nat c.optimized ++ " optimized)",
    "  Re-translations: " ++ nat c.rejits,
    "  Invalidated: " ++ nat c.invalidated,
    "  Install races: " ++ nat c.installRaces ++ ", stale retries: " ++ nat c.staleRetries,
    "  Host bytes emitted: " ++ nat c.hostBytes,
    "  Cached: " ++ nat s.cached ++ ", deferred: " ++ nat s.deferred,
    "  Arena bytes in use: " ++ nat s.arenaLiveBytes]

end Dynarec
