import Dynarec.Context
import Dynarec.Text.Hex

/-!
# Guest threads

The context of a guest thread as the host sees it.
-/

namespace Dynarec

open Guest (Flag Mode)

structure Thread where
  mode : Mode
  /-- Dispatches between two looks at the host. -/
  syncInterval : Int32
  context : Context
deriving DecidableEq, Repr

namespace Thread

/-- Intervals outside the range of the counter are moved into it. -/
def clampInterval (n : Nat) : Int32 := Int32.ofNat (min (max n 1) 0x7fffffff)

def ofMode (mode : Mode) (interval : Nat) : Thread :=
  ⟨mode, clampInterval interval, .zero⟩

variable (t : Thread)

def mapContext (g : Context → Context) : Thread := { t with context := g t.context }

/-! ### Registers -/

def x (n : Nat) : UInt64 := t.context.gpr n

/-- A32 registers have 32 bits. -/
def setX (n : Nat) (value : UInt64) : Thread :=
  let value := match t.mode with
    | .a64 => value
    | .a32 => value &&& 0xffffffff
  t.mapContext (·.setGpr n value)

def w (n : Nat) : UInt32 := (t.x n).toUInt32

/-- Set the low half of a register and clear the rest. -/
def setW (n : Nat) (value : UInt32) : Thread := t.mapContext (·.setGpr n value.toUInt64)

def spIndex : Nat :=
  match t.mode with
  | .a64 => 31
  | .a32 => 13

def sp : UInt64 := t.x t.spIndex

def setSp (value : UInt64) : Thread := t.setX t.spIndex value

def pc : UInt64 := t.context.pc

def setPc (value : UInt64) : Thread := t.mapContext ({ · with pc := value })

def v (n : Nat) : BitVec 128 := t.context.vector n

def setV (n : Nat) (value : BitVec 128) : Thread :=
  t.mapContext (·.setVector n value)

/-! ### Status -/

def flag (f : Flag) : Bool := t.context.flag f != 0

/-- Place of a flag in the status word. -/
def flagBit : Flag → Nat
  | .n => 31
  | .z => 30
  | .c => 29
  | .v => 28

/-- The status word; only the flags are kept in it. -/
def pstate : UInt32 :=
  Flag.all.foldl (fun bits f => if t.flag f then bits ||| 1 <<< (flagBit f).toUInt32 else bits) 0

def setPstate (bits : UInt32) : Thread :=
  Flag.all.foldl (fun t f =>
    t.mapContext (·.setFlag f (bits.toNat.testBit (flagBit f)).toUInt32)) t

/-! ### Registers by name -/

def systemRegisters : List (String × UInt64) :=
  [("tpidr_el0", t.context.tpidrEl0), ("tpidrro_el0", t.context.tpidrroEl0),
    ("fpcr", t.context.fpcr), ("fpsr", t.context.fpsr)]

def namedRegisters : List (String × UInt64) :=
  [("sp", t.sp), ("pc", t.pc), ("pstate", t.pstate.toUInt64)] ++ t.systemRegisters

/-- All registers but the status word and the guest address, by name. -/
def registers : List (String × Nat) :=
  (List.range 32).map (fun n => ("x" ++ Text.nat n, (t.x n).toNat)) ++
    t.systemRegisters.map (fun r => (r.1, r.2.toNat)) ++
    (List.range 32).map (fun n => ("v" ++ Text.nat n, (t.v n).toNat))

/-- Set a register by name. A letter and a number name a general register, or a vector register if
the letter is `v`; values are cut to the width of the register. -/
def setRegister (name : String) (value : Nat) : Thread :=
  let word := value.toUInt64
  match name with
  | "sp" => t.setSp word
  | "pc" => t.setPc word
  | "pstate" => t.setPstate word.toUInt32
  | "tpidr_el0" => t.mapContext ({ · with tpidrEl0 := word })
  | "tpidrro_el0" => t.mapContext ({ · with tpidrroEl0 := word })
  | "fpcr" => t.mapContext ({ · with fpcr := word })
  | "fpsr" => t.mapContext ({ · with fpsr := word })
  | name =>
    match name.toList with
    | letter :: digits =>
      match Text.digits? 10 digits with
      | some n => if letter = 'v' then t.setV n (BitVec.ofNat 128 value) else t.setX n word
      | none => t
    | [] => t

/-! ### Running and stopping -/

def isRunning : Bool := t.context.running != 0

/-- Stop at the next synchronization. The interrupt flag makes it come soon, and stays set. -/
def stop : Thread := t.mapContext ({ · with running := 0, interrupt := 1 })

/-- Ask for an interrupt at the next synchronization. -/
def requestInterrupt : Thread := t.mapContext ({ · with interrupt := 1 })

def resetSync : Thread :=
  let interval := t.syncInterval
  t.mapContext ({ · with syncCounter := interval })

/-- Take an interrupt request away; whether there was one. -/
def takeInterrupt : Bool × Thread :=
  (t.context.interrupt != 0, t.mapContext ({ · with interrupt := 0 }))

def beginRun : Thread := (t.mapContext ({ · with running := 1 })).resetSync

def markStopped : Thread := t.mapContext ({ · with running := 0 })

end Thread

end Dynarec
