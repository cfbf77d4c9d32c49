import Dynarec.IR.Basic

/-!
# The guest context

The register state of a guest thread as generated code sees it: a record at a fixed address whose
fields are reached by their offset.
-/

namespace Dynarec

open Guest (Flag)
open IR (Field GuestReg)

structure Context where
  /-- In A64 slot 31 is the stack pointer; in A32 the low halves of slots 0 to 14 are used. -/
  x : Vector UInt64 32
  v : Vector (BitVec 128) 32
  /-- The condition flags, each 0 or 1 unless generated code stores something else. -/
  nzcv : Vector UInt32 4
  fpcr : UInt64
  fpsr : UInt64
  tpidrEl0 : UInt64
  tpidrroEl0 : UInt64
  pc : UInt64
  running : UInt32
  interrupt : UInt32
  syncCounter : Int32
deriving DecidableEq, Repr

namespace Context

def zero : Context where
  x := Vector.replicate 32 0
  v := Vector.replicate 32 0
  nzcv := Vector.replicate 4 0
  fpcr := 0
  fpsr := 0
  tpidrEl0 := 0
  tpidrroEl0 := 0
  pc := 0
  running := 0
  interrupt := 0
  syncCounter := 0

instance : Inhabited Context := ⟨zero⟩

/-- Register slot of a register number; numbers past 31 wrap around. -/
def slot (n : Nat) : Fin 32 := ⟨n % 32, Nat.mod_lt n (by decide)⟩

def gpr (c : Context) (n : Nat) : UInt64 := c.x[slot n]

def setGpr (c : Context) (n : Nat) (value : UInt64) : Context :=
  { c with x := c.x.set (slot n) value }

def vector (c : Context) (n : Nat) : BitVec 128 := c.v[slot n]

def setVector (c : Context) (n : Nat) (value : BitVec 128) : Context :=
  { c with v := c.v.set (slot n) value }

def flag (c : Context) (f : Flag) : UInt32 := c.nzcv[f.index]

def setFlag (c : Context) (f : Flag) (value : UInt32) : Context :=
  { c with nzcv := c.nzcv.set f.index value }

/-- The value of a field, zero-extended. -/
def get (c : Context) : Field → UInt64
  | .register (.gpr n) => c.gpr n
  | .register (.flag f) => (c.flag f).toUInt64
  | .pc => c.pc
  | .running => c.running.toUInt64
  | .tpidrEl0 => c.tpidrEl0
  | .tpidrroEl0 => c.tpidrroEl0
  | .fpcr => c.fpcr
  | .fpsr => c.fpsr

/-- Store a value, cut to the width of the field. -/
def put (c : Context) (field : Field) (value : UInt64) : Context :=
  match field with
  | .register (.gpr n) => c.setGpr n value
  | .register (.flag f) => c.setFlag f value.toUInt32
  | .pc => { c with pc := value }
  | .running => { c with running := value.toUInt32 }
  | .tpidrEl0 => { c with tpidrEl0 := value }
  | .tpidrroEl0 => { c with tpidrroEl0 := value }
  | .fpcr => { c with fpcr := value }
  | .fpsr => { c with fpsr := value }

/-! ### Leaving generated code -/

/-- Leave for `pc`. -/
def leave (c : Context) (pc : UInt64) : Context := { c with pc }

/-- Leave for `pc` by a dispatch. Whether the host has to be looked at first: an interrupt was
requested, or the synchronization counter runs out. -/
def dispatch (c : Context) (pc : UInt64) : Bool × Context :=
  let c := c.leave pc
  if c.interrupt ≠ 0 then (true, c)
  else (c.syncCounter ≤ 1, { c with syncCounter := c.syncCounter - 1 })

/-! ### Layout of the record -/

def xOffset : Nat := 0
def vOffset : Nat := xOffset + 8 * 32
def nzcvOffset : Nat := vOffset + 16 * 32
def fpcrOffset : Nat := nzcvOffset + 4 * 4
def fpsrOffset : Nat := fpcrOffset + 8
def tpidrEl0Offset : Nat := fpsrOffset + 8
def tpidrroEl0Offset : Nat := tpidrEl0Offset + 8
def pcOffset : Nat := tpidrroEl0Offset + 8
def runningOffset : Nat := pcOffset + 8
def interruptOffset : Nat := runningOffset + 4
def syncCounterOffset : Nat := interruptOffset + 4

end Context

namespace IR.Field

/-- Byte offset of a field in the context record. -/
def offset : Field → Nat
  | register (.gpr n) => Context.xOffset + 8 * (n % 32)
  | register (.flag f) => Context.nzcvOffset + 4 * f.index.val
  | pc => Context.pcOffset
  | running => Context.runningOffset
  | tpidrEl0 => Context.tpidrEl0Offset
  | tpidrroEl0 => Context.tpidrroEl0Offset
  | fpcr => Context.fpcrOffset
  | fpsr => Context.fpsrOffset

/-- Bytes a field takes in the context record. -/
def size : Field → Nat
  | register (.flag _) | running => 4
  | _ => 8

end IR.Field

end Dynarec
