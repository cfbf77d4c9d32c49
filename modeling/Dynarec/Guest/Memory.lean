import Dynarec.Guest.Basic
import Dynarec.Text.Hex
import Dynarec.Text.Record
import Std.Data.HashMap

/-!
# Guest memory

An address space of disjoint regions in ascending order of their base. Pages that hold recompiled
code are tracked: a write that touches one is reported to every subscribed handler, and so is an
unmapped region.
-/

namespace Dynarec.Guest

inductive MemoryError where
  | unmapped (address : UInt64) (size : Nat)
  | readOnly (address : UInt64) (size : Nat)
deriving DecidableEq, Repr

def MemoryError.name : MemoryError → String
  | unmapped _ _ => "Unmapped"
  | readOnly _ _ => "ReadOnly"

def MemoryError.address : MemoryError → UInt64
  | unmapped address _ | readOnly address _ => address

open Text in
def MemoryError.message : MemoryError → String
  | unmapped address size =>
    "guest address " ++ hex address.toNat ++ " is not mapped (" ++ nat size ++ " bytes)"
  | readOnly address size =>
    "guest address " ++ hex address.toNat ++ " is not writable (" ++ nat size ++ " bytes)"

/-- What a memory tells its handlers. -/
inductive MemoryEvent where
  | unmapped (address : UInt64) (size : Nat)
  | codeWritten (address : UInt64) (size : Nat)
deriving DecidableEq, Repr

def MemoryEvent.name : MemoryEvent → String
  | unmapped _ _ => "Unmapped"
  | codeWritten _ _ => "CodeWritten"

/-- The address and the number of bytes that an event is about. -/
def MemoryEvent.range : MemoryEvent → UInt64 × Nat
  | unmapped address size | codeWritten address size => (address, size)

/-- An event on its way to the handler with the given number. -/
structure Delivery where
  handler : Nat
  event : MemoryEvent
deriving DecidableEq, Repr

/-- Granularity of code tracking. -/
def pageSize : Nat := 0x1000

/-- The bytes of a region: those it was mapped with, and zeros after them. Only the bytes among the
zeros that were stored to are kept. -/
structure Contents where
  size : Nat
  given : Array UInt8
  stored : Std.HashMap Nat UInt8

namespace Contents

def ofArray (bytes : Array UInt8) : Contents := ⟨bytes.size, bytes, ∅⟩

def zero (size : Nat) : Contents := ⟨size, #[], ∅⟩

def get (c : Contents) (i : Nat) : UInt8 :=
  if i < c.given.size then c.given.getD i 0 else c.stored.getD i 0

def set (c : Contents) (i : Nat) (b : UInt8) : Contents :=
  if i < c.given.size then { c with given := c.given.setIfInBounds i b }
  else { c with stored := c.stored.insert i b }

/-- Store bytes one after the other from index `i` on. -/
def setFrom (c : Contents) (i : Nat) : List UInt8 → Contents
  | [] => c
  | b :: rest => (c.set i b).setFrom (i + 1) rest

end Contents

structure Region where
  base : UInt64
  contents : Contents
  writable : Bool

namespace Region

def size (r : Region) : Nat := r.contents.size

/-- First address past the region. -/
def limit (r : Region) : Nat := r.base.toNat + r.size

def contains (r : Region) (address : UInt64) (size : Nat) : Bool :=
  r.base ≤ address && address.toNat + size < UInt64.size && address.toNat + size ≤ r.limit

/-- Offset of an address inside the region. -/
def offset (r : Region) (address : UInt64) : Nat := (address - r.base).toNat

def read (r : Region) (address : UInt64) (size : Nat) : List UInt8 :=
  (List.range size).map fun i => r.contents.get (r.offset address + i)

def store (r : Region) (address : UInt64) (bytes : List UInt8) : Region :=
  let start := r.offset address
  { r with contents := r.contents.setFrom start bytes }

end Region

/-- A run of pages, both ends included. -/
structure PageRange where
  first : Nat
  last : Nat
deriving DecidableEq, Repr

structure Memory where
  regions : List Region
  tracked : List PageRange
  /-- Number of subscribed handlers. -/
  handlers : Nat

namespace Memory

def empty : Memory := ⟨[], [], 0⟩

instance : Inhabited Memory := ⟨empty⟩

def subscribe (m : Memory) : Memory :=
  { m with handlers := m.handlers + 1 }

/-- The deliveries of one event, in the order of subscription. -/
def notify (m : Memory) (event : MemoryEvent) : List Delivery :=
  (List.range m.handlers).map (⟨·, event⟩)

/-- Add a region. Those that overlap it are dropped silently. -/
def insert (m : Memory) (region : Region) : Memory :=
  let kept := m.regions.filter fun r =>
    r.limit ≤ region.base.toNat || region.limit ≤ r.base.toNat
  { m with
    regions := kept.takeWhile (·.base ≤ region.base) ++ region ::
      kept.dropWhile (·.base ≤ region.base) }

def map (m : Memory) (base : UInt64) (bytes : Array UInt8) (writable : Bool) : Memory :=
  m.insert ⟨base, .ofArray bytes, writable⟩

def mapZero (m : Memory) (base : UInt64) (size : Nat) (writable : Bool) : Memory :=
  m.insert ⟨base, .zero size, writable⟩

/-- Remove the region that starts at `base`. -/
def unmap (m : Memory) (base : UInt64) : (Bool × List Delivery) × Memory :=
  match m.regions.find? (·.base == base) with
  | some r =>
    ((true, m.notify (.unmapped r.base r.size)),
      { m with regions := m.regions.eraseP (·.base == base) })
  | none => ((false, []), m)

def region? (m : Memory) (address : UInt64) (size : Nat) : Option Region :=
  m.regions.find? (·.contains address size)

/-- An access succeeds only if one region holds all of it. -/
def read (m : Memory) (address : UInt64) (size : Nat) : Except MemoryError (List UInt8) :=
  match m.region? address size with
  | some r => .ok (r.read address size)
  | none => .error (.unmapped address size)

/-- The pages an access touches; an access of no bytes touches none. -/
def pages? (address : UInt64) (size : Nat) : Option PageRange :=
  if size = 0 then none
  else some ⟨address.toNat / pageSize, (address.toNat + size - 1) / pageSize⟩

def touchesTracked (m : Memory) (address : UInt64) (size : Nat) : Bool :=
  (pages? address size).any fun p => m.tracked.any fun t => t.first ≤ p.last && p.first ≤ t.last

/-- Report writes to the pages of this range from now on. -/
def track (m : Memory) (address : UInt64) (size : Nat) : Memory :=
  match pages? address size with
  | some p => if m.tracked.contains p then m else { m with tracked := p :: m.tracked }
  | none => m

def checkWrite (m : Memory) (address : UInt64) (size : Nat) : Except MemoryError Unit :=
  match m.region? address size with
  | some r => if r.writable then .ok () else .error (.readOnly address size)
  | none => .error (.unmapped address size)

/-- Store into the first region that holds the whole access. -/
def storeIn (address : UInt64) (bytes : List UInt8) : List Region → List Region
  | [] => []
  | r :: rest =>
    if r.contains address bytes.length then r.store address bytes :: rest
    else r :: storeIn address bytes rest

def store (m : Memory) (address : UInt64) (bytes : List UInt8) : Memory :=
  { m with regions := storeIn address bytes m.regions }

/-- Write `bytes`, or leave the memory as it is and fail. -/
def write (m : Memory) (address : UInt64) (bytes : List UInt8) :
    Except MemoryError (List Delivery) × Memory :=
  match m.checkWrite address bytes.length with
  | .error e => (.error e, m)
  | .ok () =>
    let deliveries :=
      if m.touchesTracked address bytes.length then
        m.notify (.codeWritten address bytes.length)
      else []
    (.ok deliveries, m.store address bytes)

end Memory

/-- The number written by `bytes`, least significant byte first. -/
def ofBytes : List UInt8 → UInt64
  | [] => 0
  | b :: rest => b.toUInt64 ||| ofBytes rest <<< 8

/-- The `size` low bytes of `value`, least significant byte first. -/
def toBytes (value : UInt64) : Nat → List UInt8
  | 0 => []
  | n + 1 => value.toUInt8 :: toBytes (value >>> 8) n

def Memory.readValue (m : Memory) (address : UInt64) (size : AccessSize) :
    Except MemoryError UInt64 :=
  (m.read address size.bytes).map ofBytes

def Memory.readWord (m : Memory) (address : UInt64) : Except MemoryError UInt32 :=
  (m.read address 4).map fun bytes => (ofBytes bytes).toUInt32

end Dynarec.Guest
