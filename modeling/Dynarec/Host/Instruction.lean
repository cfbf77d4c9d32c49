import Dynarec.Host.Register
import Dynarec.IR.Basic

/-!
# Host instructions

The x86-64 instructions that generated code uses. Operand widths follow the value types: a 32-bit
operation clears the upper half of its destination, so a 32-bit value is held zero-extended.
-/

namespace Dynarec.Host

open IR (Ty)

inductive Width where
  | b8 | b16 | b32 | b64
deriving DecidableEq, Repr

namespace Width

def ofBytes? : Nat → Option Width
  | 1 => some b8
  | 2 => some b16
  | 4 => some b32
  | 8 => some b64
  | _ => none

def all : List Width := [b8, b16, b32, b64]

def name : Width → String
  | b8 => "B8"
  | b16 => "B16"
  | b32 => "B32"
  | b64 => "B64"

def ofName? (text : String) : Option Width := all.find? (·.name == text)

end Width

inductive AluOp where
  | add | sub | and | or | xor | cmp | test | imul
deriving DecidableEq, Repr

namespace AluOp

def all : List AluOp := [add, sub, and, or, xor, cmp, test, imul]

def name : AluOp → String
  | add => "add"
  | sub => "sub"
  | and => "and"
  | or => "or"
  | xor => "xor"
  | cmp => "cmp"
  | test => "test"
  | imul => "imul"

def ofName? (text : String) : Option AluOp := all.find? (·.name == text)

end AluOp

inductive ShiftOp where
  | shl | shr | sar | ror
deriving DecidableEq, Repr

namespace ShiftOp

def all : List ShiftOp := [shl, shr, sar, ror]

def name : ShiftOp → String
  | shl => "shl"
  | shr => "shr"
  | sar => "sar"
  | ror => "ror"

def ofName? (text : String) : Option ShiftOp := all.find? (·.name == text)

end ShiftOp

/-- Conditions on the flags: equality, unsigned below and above, signed less and greater. -/
inductive CondCode where
  | e | ne | b | be | a | ae | l | le | g | ge
deriving DecidableEq, Repr

namespace CondCode

def all : List CondCode := [e, ne, b, be, a, ae, l, le, g, ge]

def name : CondCode → String
  | e => "e"
  | ne => "ne"
  | b => "b"
  | be => "be"
  | a => "a"
  | ae => "ae"
  | l => "l"
  | le => "le"
  | g => "g"
  | ge => "ge"

def ofName? (text : String) : Option CondCode := all.find? (·.name == text)

end CondCode

structure Label where
  index : Nat
deriving DecidableEq, Repr, Inhabited

inductive Instr where
  | nop
  | mov (ty : Ty) (dst src : Gp)
  | movImm (dst : Gp) (value : UInt64)
  /-- Zero-extending load. -/
  | load (width : Width) (dst base : Gp) (disp : Int32)
  | store (width : Width) (base : Gp) (disp : Int32) (src : Gp)
  /-- Store of a sign-extended immediate, 64 bits wide or 32. -/
  | storeImm (ty : Ty) (base : Gp) (disp imm : Int32)
  | movzx (width : Width) (dst src : Gp)
  | movsx (ty : Ty) (width : Width) (dst src : Gp)
  | alu (op : AluOp) (ty : Ty) (dst src : Gp)
  | aluImm (op : AluOp) (ty : Ty) (dst : Gp) (imm : Int32)
  | shift (op : ShiftOp) (ty : Ty) (dst : Gp) (amount : UInt8)
  /-- Shift by the low bits of register 1. -/
  | shiftCl (op : ShiftOp) (ty : Ty) (dst : Gp)
  | neg (ty : Ty) (dst : Gp)
  | not (ty : Ty) (dst : Gp)
  | bswap (ty : Ty) (dst : Gp)
  /-- Index of the highest set bit; sets the zero flag if there is none. -/
  | bsr (ty : Ty) (dst src : Gp)
  /-- Multiply register 0 by `src` into registers 2 and 0. -/
  | mulWide (signed : Bool) (src : Gp)
  /-- Sign-extend register 0 into register 2. -/
  | signExtendAcc (ty : Ty)
  /-- Divide registers 2 and 0 by `src`, quotient in register 0. -/
  | divide (signed : Bool) (ty : Ty) (src : Gp)
  | setcc (cond : CondCode) (dst : Gp)
  /-- Move if the zero flag equals `zero`. -/
  | cmov (zero : Bool) (ty : Ty) (dst src : Gp)
  | cmpMemImm (ty : Ty) (base : Gp) (disp imm : Int32)
  | subMemImm (ty : Ty) (base : Gp) (disp imm : Int32)
  | exchangeAdd (base src : Gp)
  /-- Load the eight bytes at `table + 8 * index`. -/
  | loadIndexed (dst table index : Gp)
  | push (reg : Gp)
  | pop (reg : Gp)
  | callReg (reg : Gp)
  | jmpReg (reg : Gp)
  /-- Jump to the address stored at `base`. -/
  | jmpMem (base : Gp)
  | jmp (target : Label)
  | jcc (cond : CondCode) (target : Label)
  | ret
deriving DecidableEq, Repr

/-- The label that a branch names. -/
def Instr.target? : Instr → Option Label
  | jmp target | jcc _ target => some target
  | _ => none

end Dynarec.Host
