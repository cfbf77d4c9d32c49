import Dynarec.Host.Instruction

/-!
# Machine code of host instructions

The bytes of every instruction except label branches, whose form depends on the layout and which
`branchBytes` encodes. An extension byte stands only where an operand needs it.
-/

namespace Dynarec.Host

open IR (Ty)

namespace Encoding

/-- The low bytes of `value`, least significant byte first. -/
def littleEndian (value : Nat) : Nat → List UInt8
  | 0 => []
  | n + 1 => value.toUInt8 :: littleEndian (value / 256) n

def imm32 (imm : Int32) : List UInt8 := littleEndian imm.toUInt32.toNat 4

def imm8 (imm : Int32) : List UInt8 := littleEndian imm.toUInt32.toNat 1

def fitsByte (imm : Int) : Bool := -128 ≤ imm && imm ≤ 127

inductive Rm where
  | reg (r : Gp)
  | mem (base : Gp) (disp : Int32)
  /-- `table + 8 * index`. -/
  | indexed (table index : Gp)

def wide (ty : Ty) : Bool := ty == .i64

/-- Extension byte: operand width and the high bits of the three register fields. It is left out if
it says nothing, unless `forced`. -/
def rex (w : Bool) (reg index base : Nat) (forced : Bool) : List UInt8 :=
  let byte := 0x40 + w.toNat * 8 + reg / 8 * 4 + index / 8 * 2 + base / 8
  if byte != 0x40 || forced then [byte.toUInt8] else []

def modRm (mod reg rm : Nat) : UInt8 := (mod * 64 + reg % 8 * 8 + rm % 8).toUInt8

/-- Whether a base register needs the scaled-index byte. -/
def needsSib (base : Gp) : Bool := base.val % 8 == 4

/-- Whether a base register has no form without displacement. -/
def needsDisp (base : Gp) : Bool := base.val % 8 == 5

/-- The r/m field with what follows it, for the register field `reg`. -/
def rmBytes (reg : Nat) : Rm → List UInt8
  | .reg r => [modRm 3 reg r]
  | .mem base disp =>
    let sib : List UInt8 := if needsSib base then [0x24] else []
    if disp.toInt = 0 && !needsDisp base then modRm 0 reg base :: sib
    else if fitsByte disp.toInt then modRm 1 reg base :: sib ++ imm8 disp
    else modRm 2 reg base :: sib ++ imm32 disp
  | .indexed table index =>
    let sib := modRm 3 index table
    if needsDisp table then [modRm 1 reg 4, sib, 0] else [modRm 0 reg 4, sib]

def rmBase : Rm → Nat
  | .reg r => r
  | .mem base _ => base
  | .indexed table _ => table

def rmIndex : Rm → Nat
  | .indexed _ index => index
  | _ => 0

/-- An instruction with an r/m operand. -/
def form (w forced : Bool) (opcode : List UInt8) (reg : Nat) (rm : Rm) : List UInt8 :=
  rex w reg (rmIndex rm) (rmBase rm) forced ++ opcode ++ rmBytes reg rm

/-- Byte registers 4 to 7 are named only by an instruction with an extension byte. -/
def byteReg (r : Gp) : Bool := 4 ≤ r.val && r.val < 8

def aluOpcode : AluOp → List UInt8
  | .add => [0x01]
  | .or => [0x09]
  | .and => [0x21]
  | .sub => [0x29]
  | .xor => [0x31]
  | .cmp => [0x39]
  | .test => [0x85]
  | .imul => [0x0f, 0xaf]

/-- Opcode extension of the immediate form. -/
def aluDigit : AluOp → Nat
  | .add => 0
  | .or => 1
  | .and => 4
  | .sub => 5
  | .xor => 6
  | .cmp => 7
  | .test => 0
  | .imul => 0

/-- Register 0 has an immediate form of its own, always with four immediate bytes. -/
def aluImm (op : AluOp) (w : Bool) (dst : Gp) (imm : Int32) : List UInt8 :=
  match op with
  | .imul =>
    if fitsByte imm.toInt then form w false [0x6b] dst (.reg dst) ++ imm8 imm
    else form w false [0x69] dst (.reg dst) ++ imm32 imm
  | .test =>
    if dst = Gp.ax then rex w 0 0 0 false ++ 0xa9 :: imm32 imm
    else form w false [0xf7] 0 (.reg dst) ++ imm32 imm
  | _ =>
    if dst = Gp.ax then rex w 0 0 0 false ++ (aluDigit op * 8 + 5).toUInt8 :: imm32 imm
    else if fitsByte imm.toInt then form w false [0x83] (aluDigit op) (.reg dst) ++ imm8 imm
    else form w false [0x81] (aluDigit op) (.reg dst) ++ imm32 imm

def memImm (op : AluOp) (w : Bool) (base : Gp) (disp imm : Int32) : List UInt8 :=
  if fitsByte imm.toInt then form w false [0x83] (aluDigit op) (.mem base disp) ++ imm8 imm
  else form w false [0x81] (aluDigit op) (.mem base disp) ++ imm32 imm

def shiftDigit : ShiftOp → Nat
  | .ror => 1
  | .shl => 4
  | .shr => 5
  | .sar => 7

def condNumber : CondCode → Nat
  | .b => 2
  | .ae => 3
  | .e => 4
  | .ne => 5
  | .be => 6
  | .a => 7
  | .l => 12
  | .ge => 13
  | .le => 14
  | .g => 15

/-- A constant in its shortest form: zero-extended, sign-extended, or all eight bytes. -/
def movImm (dst : Gp) (value : UInt64) : List UInt8 :=
  if value.toNat < UInt32.size then
    rex false 0 0 dst false ++ (0xb8 + dst.val % 8).toUInt8 :: littleEndian value.toNat 4
  else if value.toInt64.toInt32.toInt64 = value.toInt64 then
    form true false [0xc7] 0 (.reg dst) ++ littleEndian value.toNat 4
  else rex true 0 0 dst false ++ (0xb8 + dst.val % 8).toUInt8 :: littleEndian value.toNat 8

def movzx (width : Width) (dst src : Gp) : List UInt8 :=
  match width with
  | .b8 => form false (byteReg src) [0x0f, 0xb6] dst (.reg src)
  | .b16 => form false false [0x0f, 0xb7] dst (.reg src)
  | .b32 => form false false [0x89] src (.reg dst)
  | .b64 => form true false [0x89] src (.reg dst)

def movsx (ty : Ty) (width : Width) (dst src : Gp) : List UInt8 :=
  match ty, width with
  | ty, .b8 => form (wide ty) (byteReg src) [0x0f, 0xbe] dst (.reg src)
  | ty, .b16 => form (wide ty) false [0x0f, 0xbf] dst (.reg src)
  | .i64, .b32 => form true false [0x63] dst (.reg src)
  | ty, _ => form (wide ty) false [0x89] src (.reg dst)

def load (width : Width) (dst base : Gp) (disp : Int32) : List UInt8 :=
  match width with
  | .b8 => form false false [0x0f, 0xb6] dst (.mem base disp)
  | .b16 => form false false [0x0f, 0xb7] dst (.mem base disp)
  | .b32 => form false false [0x8b] dst (.mem base disp)
  | .b64 => form true false [0x8b] dst (.mem base disp)

def store (width : Width) (base : Gp) (disp : Int32) (src : Gp) : List UInt8 :=
  match width with
  | .b8 => form false (byteReg src) [0x88] src (.mem base disp)
  | .b16 => 0x66 :: form false false [0x89] src (.mem base disp)
  | .b32 => form false false [0x89] src (.mem base disp)
  | .b64 => form true false [0x89] src (.mem base disp)

end Encoding

open Encoding in
/-- The bytes of an instruction. Label branches have none of their own, and register 4 cannot be an
index. -/
def Instr.bytes? : Instr → Option (List UInt8)
  | nop => some [0x90]
  | mov ty dst src => some (form (wide ty) false [0x89] src (.reg dst))
  | movImm dst value => some (Encoding.movImm dst value)
  | load width dst base disp => some (Encoding.load width dst base disp)
  | store width base disp src => some (Encoding.store width base disp src)
  | storeImm ty base disp imm => some (form (wide ty) false [0xc7] 0 (.mem base disp) ++ imm32 imm)
  | movzx width dst src => some (Encoding.movzx width dst src)
  | movsx ty width dst src => some (Encoding.movsx ty width dst src)
  | alu op ty dst src =>
    some (if op = .imul then form (wide ty) false (aluOpcode op) dst (.reg src)
      else form (wide ty) false (aluOpcode op) src (.reg dst))
  | aluImm op ty dst imm => some (Encoding.aluImm op (wide ty) dst imm)
  | shift op ty dst amount =>
    some (if amount = 1 then form (wide ty) false [0xd1] (shiftDigit op) (.reg dst)
      else form (wide ty) false [0xc1] (shiftDigit op) (.reg dst) ++ [amount])
  | shiftCl op ty dst => some (form (wide ty) false [0xd3] (shiftDigit op) (.reg dst))
  | neg ty dst => some (form (wide ty) false [0xf7] 3 (.reg dst))
  | not ty dst => some (form (wide ty) false [0xf7] 2 (.reg dst))
  | bswap ty dst =>
    some (rex (wide ty) 0 0 dst false ++ [0x0f, (0xc8 + dst.val % 8).toUInt8])
  | bsr ty dst src => some (form (wide ty) false [0x0f, 0xbd] dst (.reg src))
  | mulWide signed src => some (form true false [0xf7] (if signed then 5 else 4) (.reg src))
  | signExtendAcc ty => some (rex (wide ty) 0 0 0 false ++ [0x99])
  | divide signed ty src =>
    some (form (wide ty) false [0xf7] (if signed then 7 else 6) (.reg src))
  | setcc cond dst =>
    some (form false (byteReg dst) [0x0f, (0x90 + condNumber cond).toUInt8] 0 (.reg dst))
  | cmov zero ty dst src =>
    some (form (wide ty) false [0x0f, if zero then 0x44 else 0x45] dst (.reg src))
  | cmpMemImm ty base disp imm => some (memImm .cmp (wide ty) base disp imm)
  | subMemImm ty base disp imm => some (memImm .sub (wide ty) base disp imm)
  | exchangeAdd base src => some (form true false [0x0f, 0xc1] src (.mem base 0))
  | loadIndexed dst table index =>
    if index = Gp.sp then none else some (form true false [0x8b] dst (.indexed table index))
  | push reg => some (rex false 0 0 reg false ++ [(0x50 + reg.val % 8).toUInt8])
  | pop reg => some (rex false 0 0 reg false ++ [(0x58 + reg.val % 8).toUInt8])
  | callReg reg => some (form false false [0xff] 2 (.reg reg))
  | jmpReg reg => some (form false false [0xff] 4 (.reg reg))
  | jmpMem base => some (form false false [0xff] 4 (.mem base 0))
  | ret => some [0xc3]
  | jmp _ | jcc _ _ => none

open Encoding in
/-- A label branch whose target lies `distance` bytes past its end. -/
def branchBytes (cond : Option CondCode) (short : Bool) (distance : Int) : List UInt8 :=
  let offset (size : Nat) := littleEndian (distance % UInt32.size).toNat size
  match cond, short with
  | none, true => 0xeb :: offset 1
  | none, false => 0xe9 :: offset 4
  | some cc, true => (0x70 + condNumber cc).toUInt8 :: offset 1
  | some cc, false => 0x0f :: (0x80 + condNumber cc).toUInt8 :: offset 4

end Dynarec.Host
