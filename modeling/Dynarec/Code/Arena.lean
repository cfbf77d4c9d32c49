import Dynarec.Error

/-!
# Arena of generated code

A fixed stretch of memory carved into code ranges, first fit. Freed ranges are merged with their
neighbours, so free ranges never touch.
-/

namespace Dynarec.Code

/-- A range of the arena, relative to its base. -/
structure Range where
  offset : Nat
  size : Nat
deriving DecidableEq, Repr

def Range.limit (r : Range) : Nat := r.offset + r.size

def alignment : Nat := 16

/-- Unit in which memory is reserved. -/
def reservePage : Nat := 4096

/-- `n` rounded up to a multiple of `unit`. -/
def roundUp (n unit : Nat) : Nat := (n + unit - 1) / unit * unit

structure Arena where
  capacity : Nat
  /-- Free ranges in ascending order. -/
  free : List Range
  liveAllocations : Nat
  liveBytes : Nat
  /-- What was written where, the latest first. -/
  writes : List (Nat × List UInt8)
deriving Repr

namespace Arena

/-- An empty arena of at least `size` bytes, in whole pages. -/
def ofSize (size : Nat) : Arena :=
  let capacity := roundUp (max size reservePage) reservePage
  ⟨capacity, [⟨0, capacity⟩], 0, 0, []⟩

instance : Inhabited Arena := ⟨ofSize 0⟩

def base : UInt64 := 0x7f0000000000

def address (r : Range) : UInt64 := base + r.offset.toUInt64

def largestFree (a : Arena) : Nat := a.free.foldl (fun n r => max n r.size) 0

/-- Size of the range taken by `n` bytes of code. -/
def rangeSize (n : Nat) : Nat := roundUp (max n 1) alignment

/-- Cut `size` bytes off the first range that has them. -/
def cut (size : Nat) : List Range → Option (Nat × List Range)
  | [] => none
  | r :: rest =>
    if size ≤ r.size then
      some (r.offset,
        if r.size = size then rest else ⟨r.offset + size, r.size - size⟩ :: rest)
    else (cut size rest).map fun (offset, rest) => (offset, r :: rest)

/-- Take a range for `count` bytes of code. -/
def reserve (a : Arena) (count : Nat) : Except RunError (Range × Arena) :=
  let size := rangeSize count
  match cut size a.free with
  | some (offset, free) =>
    .ok (⟨offset, size⟩,
      { a with
        free
        liveAllocations := a.liveAllocations + 1
        liveBytes := a.liveBytes + size })
  | none => .error (.arenaExhausted size a.largestFree)

/-- Copy code to the start of a range. -/
def write (a : Arena) (r : Range) (code : List UInt8) : Arena :=
  { a with writes := (r.offset, code) :: a.writes }

/-- Copy code into a new range. -/
def allocate (a : Arena) (code : List UInt8) : Except RunError (Range × Arena) := do
  let (r, a) ← a.reserve code.length
  return (r, a.write r code)

/-- Put a range before the free ranges that follow it, joined to the next one if they touch. -/
def joinNext (r : Range) : List Range → List Range
  | [] => [r]
  | s :: rest => if r.limit = s.offset then ⟨r.offset, r.size + s.size⟩ :: rest else r :: s :: rest

/-- Put a range among the free ranges, joined to its neighbours. -/
def insertFree (r : Range) : List Range → List Range
  | [] => [r]
  | s :: rest =>
    if s.offset < r.offset then
      if s.limit = r.offset then joinNext ⟨s.offset, s.size + r.size⟩ rest
      else s :: insertFree r rest
    else joinNext r (s :: rest)

def release (a : Arena) (r : Range) : Arena :=
  { a with
    free := insertFree r a.free
    liveAllocations := a.liveAllocations - 1
    liveBytes := a.liveBytes - r.size }

/-- The byte at an offset; memory that was never written is zero. -/
def byte (a : Arena) (offset : Nat) : UInt8 :=
  match a.writes.find? fun w => w.1 ≤ offset && offset < w.1 + w.2.length with
  | some w => w.2.getD (offset - w.1) 0
  | none => 0

end Arena

end Dynarec.Code
