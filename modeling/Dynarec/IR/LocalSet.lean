/-!
# Sets of locals

A dense bit set over local numbers, in whole words of 64.
-/

namespace Dynarec.IR

structure LocalSet where
  /-- Number of 64-bit words. -/
  words : Nat
  bits : Nat
deriving DecidableEq, Repr, Inhabited

namespace LocalSet

/-- The empty set for locals below `count`. -/
def ofCapacity (count : Nat) : LocalSet := ⟨(count + 63) / 64, 0⟩

/-- Locals below this number fit into the set. -/
def capacity (s : LocalSet) : Nat := 64 * s.words

def contains (s : LocalSet) (i : Nat) : Bool := s.bits.testBit i

/-- A local past the capacity is not added. -/
def insert (s : LocalSet) (i : Nat) : LocalSet :=
  if i < s.capacity then { s with bits := s.bits ||| 1 <<< i } else s

def erase (s : LocalSet) (i : Nat) : LocalSet :=
  if s.contains i then { s with bits := s.bits ^^^ 1 <<< i } else s

/-- Add the members of `t` that fit. -/
def union (s t : LocalSet) : LocalSet :=
  { s with bits := s.bits ||| t.bits % 1 <<< s.capacity }

/-- Take away the members of `t`. -/
def diff (s t : LocalSet) : LocalSet :=
  { s with bits := s.bits ^^^ (s.bits &&& t.bits) }

def toList (s : LocalSet) : List Nat := (List.range s.capacity).filter s.contains

def isEmpty (s : LocalSet) : Bool := s.bits == 0

end LocalSet

end Dynarec.IR
