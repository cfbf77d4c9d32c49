import Dynarec.Code.AddressTable
import Dynarec.Code.Arena
import Dynarec.IR.Optimize

/-!
# Code cache

The code of all compiled blocks by guest address, in shards. The address table is kept in step:
it publishes exactly the blocks of the cache. Range queries look at a window that reaches back by
the largest guest size ever installed, so that a block which starts before a range and ends in it
is found.
-/

namespace Dynarec.Code

open IR (Tier)

/-- The host code of a guest block. -/
structure Compiled where
  /-- Tells compilations of one address apart. -/
  serial : Nat
  guestAddress : UInt64
  guestSize : Nat
  tier : Tier
  /-- Where the code stands in the arena. -/
  range : Range
  /-- What the code does. -/
  body : IR.Function

instance : Inhabited Compiled := ⟨⟨0, 0, 0, .fast, ⟨0, 0⟩, default⟩⟩

namespace Compiled

/-- First guest address past the block. -/
def guestLimit (c : Compiled) : Nat := c.guestAddress.toNat + c.guestSize

def host (c : Compiled) : UInt64 := Arena.address c.range

/-- First address past a guest range that may not reach past the end of the address space. -/
def rangeLimit (address size : UInt64) : Nat := min (address.toNat + size.toNat) (UInt64.size - 1)

/-- Whether the block has bytes in a guest range. -/
def overlaps (c : Compiled) (address size : UInt64) : Bool :=
  c.guestAddress.toNat < rangeLimit address size && address.toNat < c.guestLimit

end Compiled

/-- What became of an installation. -/
inductive InstallOutcome where
  | installed (c : Compiled)
  /-- The address has code already. -/
  | existing (c : Compiled)
  /-- Guest code was invalidated since the compilation began. -/
  | stale

abbrev shardCount : Nat := 64

/-- Blocks in ascending order of the address they are installed at. -/
abbrev Shard := List (UInt64 × Compiled)

namespace Shard

def insert (address : UInt64) (c : Compiled) : Shard → Shard
  | [] => [(address, c)]
  | e :: rest =>
    if address < e.1 then (address, c) :: e :: rest
    else if address = e.1 then (address, c) :: rest
    else e :: insert address c rest

end Shard

structure Cache where
  shards : Vector Shard shardCount
  maxSpan : Nat
  table : AddressTable

namespace Cache

def ofTable (table : AddressTable) : Cache := ⟨Vector.replicate shardCount [], 0, table⟩

def shardIndex (address : UInt64) : Fin shardCount :=
  ⟨address.toNat / 4 % shardCount, Nat.mod_lt _ (by decide)⟩

variable (c : Cache)

def shard (address : UInt64) : Shard := c.shards[shardIndex address]

def get? (address : UInt64) : Option Compiled := (c.shard address).lookup address

def contains (address : UInt64) : Bool := (c.get? address).isSome

def entries : List (UInt64 × Compiled) := c.shards.toList.flatten

def size : Nat := c.entries.length

def isEmpty : Bool := c.size == 0

/-- Put a block at an address and publish it. -/
def put (address : UInt64) (block : Compiled) : Cache :=
  let i := shardIndex address
  { shards := c.shards.set i (Shard.insert address block c.shards[i])
    maxSpan := max c.maxSpan block.guestSize
    table := (c.table.publish address block.host).2 }

/-- Install a block, unless its address has code or the epoch has moved on. -/
def install (block : Compiled) (epoch expected : UInt64) (force : Bool) : InstallOutcome × Cache :=
  match c.get? block.guestAddress with
  | some existing => (.existing existing, c)
  | none =>
    if !force && epoch != expected then (.stale, c)
    else (.installed block, c.put block.guestAddress block)

/-- Put `replacement` where `current` is, if it is still there. -/
def replace (current replacement : Compiled) : Bool × Cache :=
  match c.get? current.guestAddress with
  | some live =>
    if live.serial = current.serial then (true, c.put current.guestAddress replacement)
    else (false, c)
  | none => (false, c)

/-- Whether an entry lies in the window of a range query and overlaps the range. -/
def hit (address size : UInt64) (e : UInt64 × Compiled) : Bool :=
  address.toNat - c.maxSpan ≤ e.1.toNat && e.1.toNat < Compiled.rangeLimit address size
    && e.2.overlaps address size

/-- The blocks that have bytes in a guest range. -/
def overlapping (address size : UInt64) : List Compiled :=
  (c.entries.filter (c.hit address size)).map (·.2)

/-- Remove the blocks that have bytes in a guest range. -/
def removeRange (address size : UInt64) : List Compiled × Cache :=
  let hits := c.entries.filter (c.hit address size)
  (hits.map (·.2),
    { c with
      shards := c.shards.map fun s => s.filter fun e => !c.hit address size e
      table := hits.foldl (fun t e => t.reset e.1) c.table })

def clear : List Compiled × Cache :=
  (c.entries.map (·.2),
    { c with shards := Vector.replicate shardCount [], table := c.table.clear })

end Cache

end Dynarec.Code
