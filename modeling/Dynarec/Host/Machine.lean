import Dynarec.Context
import Dynarec.Host.Assembler
import Dynarec.Host.Convention
import Dynarec.Host.Symbol

/-!
# Meaning of host instructions

An abstract processor that runs emitted instructions. The context and the stack frame are apart
from each other; what lies beyond them, the host functions and the address table, is a parameter.
Flags are kept for the instructions whose flags generated code looks at; the others leave them as
they are.
-/

namespace Dynarec.Host

open IR (Ty)

structure Flags where
  carry : Bool
  zero : Bool
  sign : Bool
  overflow : Bool
deriving DecidableEq, Repr

def Flags.holds (f : Flags) : CondCode → Bool
  | .e => f.zero
  | .ne => !f.zero
  | .b => f.carry
  | .be => f.carry || f.zero
  | .a => !(f.carry || f.zero)
  | .ae => !f.carry
  | .l => f.sign != f.overflow
  | .le => f.zero || f.sign != f.overflow
  | .g => !(f.zero || f.sign != f.overflow)
  | .ge => f.sign == f.overflow

/-- The stack as words by address. -/
structure Stack where
  /-- What was there before any code ran. -/
  initial : UInt64 → UInt64
  written : List (UInt64 × UInt64)

namespace Stack

def read (s : Stack) (address : UInt64) : UInt64 :=
  (s.written.lookup address).getD (s.initial address)

def write (s : Stack) (address value : UInt64) : Stack :=
  { s with written := (address, value) :: s.written.filter (·.1 != address) }

end Stack

structure Cpu where
  regs : GpMap UInt64
  flags : Flags
  stack : Stack

/-- The host as generated code sees it, over a world `ω` that holds the guest context. -/
structure Surroundings (ω : Type) where
  context : ω → Context
  mapContext : (Context → Context) → ω → ω
  /-- A call of a host function with two arguments; the result and the new world. -/
  call : HostCall → UInt64 → UInt64 → ω → UInt64 × ω
  /-- What a call leaves in the registers that it may overwrite. -/
  clobber : ω → Gp → UInt64
  /-- Add to a counter in memory; its old value. -/
  addToCounter : (address amount : UInt64) → ω → UInt64 × ω
  /-- A word of the address table. -/
  word : (address : UInt64) → ω → UInt64

/-- How generated code ends. -/
inductive Departure where
  /-- Back to the caller, with the result in the accumulator. -/
  | returned
  /-- Into other host code. -/
  | dispatched (target : UInt64)
deriving DecidableEq, Repr

namespace Cpu

def get (c : Cpu) (r : Gp) : UInt64 := c.regs.get r

def set (c : Cpu) (r : Gp) (value : UInt64) : Cpu := { c with regs := c.regs.set r value }

/-- A 32-bit result clears the upper half. -/
def setTyped (c : Cpu) (ty : Ty) (r : Gp) (value : UInt64) : Cpu := c.set r (value &&& ty.mask)

def getTyped (c : Cpu) (ty : Ty) (r : Gp) : UInt64 := c.get r &&& ty.mask

end Cpu

namespace Exec

/-! ### Arithmetic -/

def signBit (ty : Ty) (v : UInt64) : Bool := ty.signed v < 0

def subFlags (ty : Ty) (a b : UInt64) : Flags :=
  let a := a &&& ty.mask
  let b := b &&& ty.mask
  let r := (a - b) &&& ty.mask
  { carry := a < b
    zero := r == 0
    sign := signBit ty r
    overflow := ty.signed a - ty.signed b != ty.signed r }

def logicFlags (ty : Ty) (r : UInt64) : Flags :=
  { carry := false, zero := r &&& ty.mask == 0, sign := signBit ty r, overflow := false }

def addFlags (ty : Ty) (a b : UInt64) : Flags :=
  let a := a &&& ty.mask
  let b := b &&& ty.mask
  let r := (a + b) &&& ty.mask
  { carry := ty.mask.toNat < a.toNat + b.toNat
    zero := r == 0
    sign := signBit ty r
    overflow := ty.signed a + ty.signed b != ty.signed r }

def alu (c : Cpu) (op : AluOp) (ty : Ty) (dst : Gp) (b : UInt64) : Cpu :=
  let a := c.get dst
  let logic (r : UInt64) : Cpu := { c.setTyped ty dst r with flags := logicFlags ty r }
  match op with
  | .add => { c.setTyped ty dst (a + b) with flags := addFlags ty a b }
  | .sub => { c.setTyped ty dst (a - b) with flags := subFlags ty a b }
  | .and => logic (a &&& b)
  | .or => logic (a ||| b)
  | .xor => logic (a ^^^ b)
  | .cmp => { c with flags := subFlags ty a b }
  | .test => { c with flags := logicFlags ty (a &&& b) }
  | .imul => c.setTyped ty dst (a * b)

/-- A shift by an amount that is reduced to the width. -/
def shift (op : ShiftOp) (ty : Ty) (v : UInt64) (amount : UInt64) : UInt64 :=
  let n := amount.toNat % ty.bits
  let v := v &&& ty.mask
  let r := match op with
    | .shl => v <<< n.toUInt64
    | .shr => v >>> n.toUInt64
    | .sar => UInt64.ofInt (ty.signed v >>> n)
    | .ror => v >>> n.toUInt64 ||| (if n = 0 then 0 else v <<< (ty.bits - n).toUInt64)
  r &&& ty.mask

def bytes (ty : Ty) (v : UInt64) : List UInt64 :=
  (List.range (ty.bits / 8)).map fun i => (v >>> (8 * i).toUInt64) &&& 0xff

/-- The bytes of a value in opposite order. -/
def byteSwap (ty : Ty) (v : UInt64) : UInt64 := (bytes ty v).foldl (fun r b => r <<< 8 ||| b) 0

def widthBits : Width → Nat
  | .b8 => 8
  | .b16 => 16
  | .b32 => 32
  | .b64 => 64

def lowBits (w : Width) (v : UInt64) : UInt64 := (v.toNat % 1 <<< widthBits w).toUInt64

def signExtend (w : Width) (v : UInt64) : UInt64 :=
  UInt64.ofInt (((lowBits w v).toNat : Int).bmod (1 <<< widthBits w))

/-- A product of two words, high word first. -/
def mulWide (signed : Bool) (a b : UInt64) : UInt64 × UInt64 :=
  let p : Int :=
    if signed then a.toInt64.toInt * b.toInt64.toInt else Int.ofNat (a.toNat * b.toNat)
  (UInt64.ofInt (p / UInt64.size), UInt64.ofInt p)

/-- The quotient and the remainder of a double word, high word first. `none` is a divide error:
the divisor is zero or the quotient does not fit. -/
def divide? (signed : Bool) (ty : Ty) (high low divisor : UInt64) : Option (UInt64 × UInt64) :=
  let unit : Int := (1 <<< ty.bits : Nat)
  let low : Int := (low &&& ty.mask).toNat
  let (n, d) : Int × Int :=
    if signed then (ty.signed high * unit + low, ty.signed divisor)
    else ((high &&& ty.mask).toNat * unit + low, (divisor &&& ty.mask).toNat)
  let q := n.tdiv d
  let fits := if signed then -(unit / 2) ≤ q && q < unit / 2 else q < unit
  if d = 0 || !fits then none else some (UInt64.ofInt q, UInt64.ofInt (n.tmod d))

/-! ### Memory -/

variable {ω : Type}

/-- The fields that instructions can reach in the context. -/
def contextFields : List IR.Field :=
  (List.range 32).map (fun n => .register (.gpr n)) ++
    Guest.Flag.all.map (fun f => .register (.flag f)) ++
    [.pc, .running, .tpidrEl0, .tpidrroEl0, .fpcr, .fpsr]

def fieldAt? (offset : Nat) : Option IR.Field := contextFields.find? (·.offset == offset)

/-- The value of the context at an offset; `none` if no field of that width is there. -/
def contextLoad? (c : Context) (offset : Nat) (width : Width) : Option UInt64 :=
  if offset = Context.interruptOffset then some c.interrupt.toUInt64
  else if offset = Context.syncCounterOffset then some c.syncCounter.toUInt32.toUInt64
  else ((fieldAt? offset).filter fun f => widthBits width ≤ 8 * f.size).map fun f =>
    lowBits width (c.get f)

/-- Store a value in the context at an offset; `none` if no field of that width is there. -/
def contextStore? (c : Context) (offset : Nat) (width : Width) (value : UInt64) : Option Context :=
  if offset = Context.interruptOffset then some { c with interrupt := value.toUInt32 }
  else if offset = Context.syncCounterOffset then
    some { c with syncCounter := value.toUInt32.toInt32 }
  else ((fieldAt? offset).filter fun f => widthBits width == 8 * f.size).map fun f =>
    c.put f value

def isContext (base : Gp) : Bool := contextReg.gp? == some base

def load? (host : Surroundings ω) (c : Cpu) (world : ω) (width : Width) (base : Gp)
    (disp : Int32) : Option UInt64 :=
  if isContext base then contextLoad? (host.context world) disp.toInt.toNat width
  else some (lowBits width (c.stack.read (c.get base + UInt64.ofInt disp.toInt)))

def store? (host : Surroundings ω) (c : Cpu) (world : ω) (width : Width) (base : Gp)
    (disp : Int32) (value : UInt64) : Option (Cpu × ω) :=
  if isContext base then
    (contextStore? (host.context world) disp.toInt.toNat width value).map fun context =>
      (c, host.mapContext (fun _ => context) world)
  else if width = .b64 then
    let address := c.get base + UInt64.ofInt disp.toInt
    some ({ c with stack := c.stack.write address value }, world)
  else none

def widthOf : Ty → Width
  | .i32 => .b32
  | .i64 => .b64

/-! ### Instructions -/

/-- What follows an instruction. -/
inductive Outcome (ω : Type) where
  | next (c : Cpu) (world : ω)
  | jump (target : Label) (c : Cpu) (world : ω)
  | leave (how : Departure) (c : Cpu) (world : ω)
  /-- A processor exception, or an access that generated code never makes. -/
  | fault

/-- A call of a host function, whose address is in a register. -/
def call (host : Surroundings ω) (c : Cpu) (world : ω) (address : UInt64) : Outcome ω :=
  match HostCall.ofAddress? address with
  | none => .fault
  | some f =>
    let (result, world) := host.call f (c.get Gp.di) (c.get Gp.si) world
    let clobbered := (returnReg :: scratchRegs ++ callerSavedRegs).filterMap Reg.gp?
    let c := clobbered.foldl (fun c r => c.set r (host.clobber world r)) c
    .next (c.set Gp.ax result) world

def step (host : Surroundings ω) (c : Cpu) (world : ω) (instr : Instr) : Outcome ω :=
  let done (c : Cpu) : Outcome ω := .next c world
  let imm (v : Int32) : UInt64 := UInt64.ofInt v.toInt
  match instr with
  | .nop => done c
  | .mov ty d s => done (c.setTyped ty d (c.get s))
  | .movImm d v => done (c.set d v)
  | .load w d base disp =>
    match load? host c world w base disp with
    | some v => done (c.set d v)
    | none => .fault
  | .store w base disp s =>
    match store? host c world w base disp (c.get s) with
    | some (c, world) => .next c world
    | none => .fault
  | .storeImm ty base disp v =>
    match store? host c world (widthOf ty) base disp (imm v) with
    | some (c, world) => .next c world
    | none => .fault
  | .movzx w d s => done (c.set d (lowBits w (c.get s)))
  | .movsx ty w d s => done (c.setTyped ty d (signExtend w (c.get s)))
  | .alu op ty d s => done (alu c op ty d (c.get s))
  | .aluImm op ty d v => done (alu c op ty d (imm v))
  | .shift op ty d n => done (c.set d (shift op ty (c.get d) n.toUInt64))
  | .shiftCl op ty d => done (c.set d (shift op ty (c.get d) (c.get Gp.cx)))
  | .neg ty d => done (c.setTyped ty d (0 - c.get d))
  | .not ty d => done (c.setTyped ty d (~~~c.get d))
  | .bswap ty d => done (c.set d (byteSwap ty (c.get d)))
  | .bsr ty d s =>
    let v := c.getTyped ty s
    if v = 0 then done { c with flags := { c.flags with zero := true } }
    else done { c.set d v.toNat.log2.toUInt64 with flags := { c.flags with zero := false } }
  | .mulWide signed s =>
    let (high, low) := mulWide signed (c.get Gp.ax) (c.get s)
    done ((c.set Gp.ax low).set Gp.dx high)
  | .signExtendAcc ty =>
    done (c.setTyped ty Gp.dx (if signBit ty (c.get Gp.ax) then ty.mask else 0))
  | .divide signed ty s =>
    match divide? signed ty (c.get Gp.dx) (c.get Gp.ax) (c.get s) with
    | some (q, r) => done ((c.setTyped ty Gp.ax q).setTyped ty Gp.dx r)
    | none => .fault
  | .setcc cond d => done (c.set d (c.get d / 256 * 256 ||| (c.flags.holds cond).toUInt64))
  | .cmov zero ty d s => done (c.setTyped ty d (if c.flags.zero = zero then c.get s else c.get d))
  | .cmpMemImm ty base disp v =>
    match load? host c world (widthOf ty) base disp with
    | some a => done { c with flags := subFlags ty a (imm v) }
    | none => .fault
  | .subMemImm ty base disp v =>
    match load? host c world (widthOf ty) base disp with
    | none => .fault
    | some a =>
      match store? host c world (widthOf ty) base disp (a - imm v) with
      | some (c, world) => .next { c with flags := subFlags ty a (imm v) } world
      | none => .fault
  | .exchangeAdd base s =>
    let (old, world) := host.addToCounter (c.get base) (c.get s) world
    .next (c.set s old) world
  | .push r =>
    let top := c.get Gp.sp - 8
    done { c.set Gp.sp top with stack := c.stack.write top (c.get r) }
  | .pop r =>
    let top := c.get Gp.sp
    done ((c.set Gp.sp (top + 8)).set r (c.stack.read top))
  | .callReg r => call host c world (c.get r)
  | .loadIndexed d table index =>
    done (c.set d (host.word (c.get table + 8 * c.get index) world))
  | .jmpReg r => .leave (.dispatched (c.get r)) c world
  | .jmpMem r => .leave (.dispatched (host.word (c.get r) world)) c world
  | .jmp target => .jump target c world
  | .jcc cond target => if c.flags.holds cond then .jump target c world else done c
  | .ret => .leave .returned c world

/-- Run emitted instructions from position `i` on, at most `fuel` of them. -/
def run (host : Surroundings ω) (a : Assembler) :
    (fuel : Nat) → (i : Nat) → Cpu → ω → Option (Departure × Cpu × ω)
  | 0, _, _, _ => none
  | fuel + 1, i, c, world =>
    match a.items[i]? with
    | none => none
    | some item =>
      match step host c world item.instr with
      | .next c world => run host a fuel (i + 1) c world
      | .jump target c world => (a.labels.getD target.index none).bind fun i =>
        run host a fuel i c world
      | .leave how c world => some (how, c, world)
      | .fault => none

end Exec

/-! ### Code by itself -/

/-- Surroundings of code that calls no host function. -/
def Surroundings.idle : Surroundings Context where
  context c := c
  mapContext g c := g c
  call _ _ _ c := (0, c)
  clobber _ _ := 0
  addToCounter _ _ c := (0, c)
  word _ _ := 0

/-- A processor with an empty stack. -/
def Cpu.initial : Cpu where
  regs := (GpMap.replicate 0).set Gp.sp 0x7ffffff00000
  flags := ⟨false, false, false, false⟩
  stack := ⟨fun _ => 0, []⟩

/-- Run emitted code that calls no host function; the guest address it leaves for. The address
table leads back from every dispatch. -/
def Assembler.runAlone (a : Assembler) (fuel : Nat) (c : Context) : Option (UInt64 × Context) :=
  (Exec.run .idle a fuel 0 .initial c).map fun
    | (.returned, cpu, c) => (cpu.get Gp.ax, c)
    | (.dispatched _, _, c) => (c.pc, c)

end Dynarec.Host
