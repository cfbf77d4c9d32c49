import Dynarec.Compile
import Dynarec.Machine.Basic

/-!
# Code for guest addresses

A block is compiled when its address is first reached. If guest code changes while it is compiled,
it is compiled again, up to a number of times. In the tiered mode blocks are first compiled fast,
and again with optimization once they have been called often enough.
-/

namespace Dynarec.Machine

open Code (Compiled InstallOutcome)
open Guest (Block CodeSource)
open IR (Tier)

variable {σ : Type} (sup : Supervisor σ)

/-- Guest code as the compilation of the block at `start` sees it. -/
def codeSource (start : UInt64) : CodeSource (Machine σ) where
  fetch address m :=
    let (word, m) := m.read sup address .word
    (word.map UInt64.toUInt32, m)
  isEntry address m := address != start && m.recompiler.cache.contains address

/-- The pages that the block at `address` may come from. -/
def trackCode (m : Machine σ) (address : UInt64) : Machine σ :=
  let span := min (4 * m.config.maxBlock) (UInt64.size - 1 - address.toNat)
  { m with memory := m.memory.track address span }

/-- Compile a decoded block and place its code in the arena. -/
def place (m : Machine σ) (block : Block) (tier : Tier) : Except RunError Compiled × Machine σ :=
  let (serial, r) := m.recompiler.newSerial
  let options : Lift.Options :=
    { tier
      counter := match tier with
        | .fast => Host.counterAddress serial
        | .optimized => 0
      threshold := m.config.rejitThreshold }
  let c := Compilation.ofBlock block m.config.mode options r.table
  let r := r.setTable c.generated.table
  match c.generated.code with
  | .error e => (.error (.compile e), { m with recompiler := r })
  | .ok code =>
    match r.arena.allocate code with
    | .error e => (.error e, { m with recompiler := r })
    | .ok (range, arena) =>
      let compiled : Compiled :=
        { serial, guestAddress := block.start, guestSize := block.size, tier, range
          body := c.final }
      (.ok compiled,
        { m with recompiler := { r with arena }.recordCompilation tier code.length })

/-- Compile the block at an address. It is not installed yet. -/
def compile (m : Machine σ) (address : UInt64) (tier : Tier) :
    Except RunError Compiled × Machine σ :=
  let m := m.trackCode address
  match Block.decode (codeSource sup address) m.config.mode address m.config.maxBlock m with
  | (.error fault, m) => (.error (.compile (.fetch fault)), m)
  | (.ok block, m) => m.place block tier

/-- Compile and install the block at an address, again if guest code changed meanwhile. The last
attempt is installed in any case. -/
def compileUntil (address : UInt64) (tier : Tier) :
    (retries : Nat) → Machine σ → Except RunError Compiled × Machine σ
  | retries, m =>
    let epoch := m.recompiler.epoch
    match m.compile sup address tier with
    | (.error e, m) => (.error e, m)
    | (.ok c, m) =>
      match retries, m.recompiler.install c epoch (retries == 0) with
      | _, (.installed c, recompiler) | _, (.existing c, recompiler) =>
        (.ok c, { m with recompiler })
      | retries + 1, (.stale, recompiler) =>
        compileUntil address tier retries { m with recompiler }
      | 0, (.stale, recompiler) => (.ok c, { m with recompiler })

/-- The code of an address, compiled if there is none. -/
def obtain (m : Machine σ) (address : UInt64) : Except RunError Compiled × Machine σ :=
  match m.recompiler.cache.get? address with
  | some c => (.ok c, m)
  | none =>
    let tier : Tier := if m.config.tiered then .fast else .optimized
    compileUntil sup address tier (m.config.maxRetries - 1) m

/-- The code to go on with at an address: what the table publishes, else what can be obtained. -/
def resolve (m : Machine σ) (pc : UInt64) : Except RunError Compiled × Machine σ :=
  match m.recompiler.published? pc with
  | some c => (.ok c, m)
  | none => m.obtain sup pc

/-! ### Compiling again -/

/-- Replace the fast code of an address by optimized code; whether that was done. -/
def rejit (m : Machine σ) (address : UInt64) : Except RunError Bool × Machine σ :=
  match m.recompiler.cache.get? address with
  | none => (.ok false, m)
  | some current =>
    if current.tier ≠ .fast then (.ok false, m)
    else
      let epoch := m.recompiler.epoch
      match m.compile sup address .optimized with
      | (.error e, m) => (.error e, m)
      | (.ok better, m) =>
        let (done, recompiler) := m.recompiler.upgrade current better epoch
        (.ok done, { m with recompiler })

/-- Compile the first waiting blocks again, `count` of them. Failures are passed over. -/
def drainFirst : (count : Nat) → Machine σ → Nat × Machine σ
  | 0, m => (0, m)
  | count + 1, m =>
    match m.recompiler.queue.pending with
    | [] => (0, m)
    | address :: rest =>
      let m := m.mapRecompiler fun r => { r with queue := { r.queue with pending := rest } }
      let (n, m) := drainFirst count (m.rejit sup address).2
      (n + 1, m)

/-- Compile all waiting blocks again; the number of them. -/
def drain (m : Machine σ) : Nat × Machine σ :=
  drainFirst sup m.recompiler.queue.pending.length m

end Dynarec.Machine
