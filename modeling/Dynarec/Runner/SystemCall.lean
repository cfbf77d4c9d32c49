import Dynarec.Machine.Basic

/-!
# System calls of a guest program

A program may write to its two output streams and exit. All other calls fail.
-/

namespace Dynarec.Runner

open Guest (Mode)

/-- What a program has done so far. -/
structure Console where
  stdout : Array UInt8 := #[]
  stderr : Array UInt8 := #[]
  exitCode : UInt64 := 0
deriving DecidableEq, Repr, Inhabited

/-- Call numbers and the register that holds them. -/
structure CallConvention where
  numberReg : Nat
  exit : UInt64
  write : UInt64

def CallConvention.ofMode : Mode → CallConvention
  | .a64 => ⟨8, 93, 64⟩
  | .a32 => ⟨7, 1, 4⟩

def badAddress : Int := -14
def badDescriptor : Int := -9
def noSuchCall : Int := -38

def write (m : Machine Console) (descriptor buffer length : UInt64) : Int × Machine Console :=
  match m.memory.read buffer length.toNat with
  | .error _ => (badAddress, m)
  | .ok bytes =>
    let console := m.state
    match descriptor.toNat with
    | 1 => (length.toNat, { m with state := { console with stdout := console.stdout ++ bytes } })
    | 2 => (length.toNat, { m with state := { console with stderr := console.stderr ++ bytes } })
    | _ => (badDescriptor, m)

/-- Serve a call; its result goes to the first register. -/
def systemCall (_pc : UInt64) (_payload : UInt32) (m : Machine Console) : Machine Console :=
  let t := m.thread
  let convention := CallConvention.ofMode t.mode
  let number := t.x convention.numberReg
  let (result, m) : Int × Machine Console :=
    if number = convention.exit then
      (0, { m with state := { m.state with exitCode := t.x 0 } }.mapThread Thread.stop)
    else if number = convention.write then write m (t.x 0) (t.x 1) (t.x 2)
    else (noSuchCall, m)
  m.mapThread (·.setX 0 (UInt64.ofInt result))

end Dynarec.Runner
