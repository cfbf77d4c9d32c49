import Dynarec.Guest.Basic
import Dynarec.Text.Record

/-!
# A64 instructions

The integer subset of A64. Register number 31 is resolved: an operand names the stack pointer or
the zero register. `Instr.text` writes an instruction with its fields.
-/

namespace Dynarec.Guest.A64

inductive Reg where
  | x (n : Fin 31)
  | sp
  | zr
deriving DecidableEq, Repr

namespace Reg

/-- Register `n`, where 31 is the zero register. -/
def ofNatZr (n : Nat) : Reg :=
  if h : n < 31 then x ⟨n, h⟩ else zr

/-- Register `n`, where 31 is the stack pointer. -/
def ofNatSp (n : Nat) : Reg :=
  if h : n < 31 then x ⟨n, h⟩ else sp

/-- The slot of the register file behind the operand; the stack pointer has slot 31. -/
def slot? : Reg → Option Nat
  | x n => some n
  | sp => some 31
  | zr => none

end Reg

inductive Extend where
  | uxtb | uxth | uxtw | uxtx | sxtb | sxth | sxtw | sxtx
deriving DecidableEq, Repr

namespace Extend

/-- The extension named by the low three bits. -/
def ofBits (bits : Nat) : Extend :=
  match bits % 8 with
  | 0 => uxtb
  | 1 => uxth
  | 2 => uxtw
  | 3 => uxtx
  | 4 => sxtb
  | 5 => sxth
  | 6 => sxtw
  | _ => sxtx

def name : Extend → String
  | uxtb => "Uxtb"
  | uxth => "Uxth"
  | uxtw => "Uxtw"
  | uxtx => "Uxtx"
  | sxtb => "Sxtb"
  | sxth => "Sxth"
  | sxtw => "Sxtw"
  | sxtx => "Sxtx"

end Extend

/-- Second operand of arithmetic and logical instructions. -/
inductive Operand2 where
  | imm (value : UInt64)
  | shifted (rm : Reg) (shift : Shift) (amount : Nat)
  | extended (rm : Reg) (extend : Extend) (amount : Nat)
deriving DecidableEq, Repr

inductive LogicOp where
  | and | orr | eor
deriving DecidableEq, Repr

inductive MoveWideOp where
  | movn | movz | movk
deriving DecidableEq, Repr

inductive BitfieldOp where
  | sbfm | bfm | ubfm
deriving DecidableEq, Repr

inductive CondSelectOp where
  | csel | csinc | csinv | csneg
deriving DecidableEq, Repr

inductive CompareOperand where
  | imm (value : Nat)
  | reg (rm : Reg)
deriving DecidableEq, Repr

/-- Which groups of bytes are reversed: those of each half word, of each word, or all. -/
inductive ReverseKind where
  | rev16 | rev32 | rev
deriving DecidableEq, Repr

inductive BranchKind where
  | br | blr | ret
deriving DecidableEq, Repr

/-- Which address is accessed and whether the base register is updated. -/
inductive IndexMode where
  | offset | preIndex | postIndex
deriving DecidableEq, Repr

inductive Offset where
  | imm (bytes : Int)
  | reg (rm : Reg) (extend : Extend) (amount : Nat)
deriving DecidableEq, Repr

/-- A base register displaced by an offset. -/
structure Address where
  base : Reg
  offset : Offset
  mode : IndexMode
deriving DecidableEq, Repr

/-- System registers that unprivileged code may name. -/
inductive SysReg where
  | nzcv | fpcr | fpsr | tpidrEl0 | tpidrroEl0 | cntvctEl0 | cntpctEl0 | cntfrqEl0 | ctrEl0
  | dczidEl0
deriving DecidableEq, Repr

namespace SysReg

def ofEncoding? (op0 op1 crn crm op2 : Nat) : Option SysReg :=
  match op0, op1, crn, crm, op2 with
  | 3, 3, 4, 2, 0 => some nzcv
  | 3, 3, 4, 4, 0 => some fpcr
  | 3, 3, 4, 4, 1 => some fpsr
  | 3, 3, 13, 0, 2 => some tpidrEl0
  | 3, 3, 13, 0, 3 => some tpidrroEl0
  | 3, 3, 14, 0, 2 => some cntvctEl0
  | 3, 3, 14, 0, 1 => some cntpctEl0
  | 3, 3, 14, 0, 0 => some cntfrqEl0
  | 3, 3, 0, 0, 1 => some ctrEl0
  | 3, 3, 0, 0, 7 => some dczidEl0
  | _, _, _, _, _ => none

def isWritable : SysReg → Bool
  | nzcv | fpcr | fpsr | tpidrEl0 => true
  | _ => false

end SysReg

/-- An A64 instruction; `wide` selects the 64-bit form. -/
inductive Instr where
  | addSub (wide sub setFlags : Bool) (rd rn : Reg) (operand : Operand2)
  | addSubCarry (wide sub setFlags : Bool) (rd rn rm : Reg)
  | logical (wide : Bool) (op : LogicOp) (invert setFlags : Bool) (rd rn : Reg)
      (operand : Operand2)
  | moveWide (wide : Bool) (op : MoveWideOp) (rd : Reg) (imm16 shift : Nat)
  | adr (rd : Reg) (target : UInt64)
  | bitfield (wide : Bool) (op : BitfieldOp) (rd rn : Reg) (immr imms : Nat)
  | extract (wide : Bool) (rd rn rm : Reg) (lsb : Nat)
  | shiftVariable (wide : Bool) (shift : Shift) (rd rn rm : Reg)
  | divide (wide signed : Bool) (rd rn rm : Reg)
  | mulAdd (wide sub : Bool) (rd rn rm ra : Reg)
  | mulAddLong (signed sub : Bool) (rd rn rm ra : Reg)
  | mulHigh (signed : Bool) (rd rn rm : Reg)
  | countLeadingZeros (wide : Bool) (rd rn : Reg)
  | reverse (wide : Bool) (kind : ReverseKind) (rd rn : Reg)
  | condSelect (wide : Bool) (op : CondSelectOp) (rd rn rm : Reg) (cond : Cond)
  | condCompare (wide negative : Bool) (rn : Reg) (operand : CompareOperand) (nzcv : Nat)
      (cond : Cond)
  | load (size : AccessSize) (signed wide : Bool) (rt : Reg) (addr : Address)
  | store (size : AccessSize) (rt : Reg) (addr : Address)
  | loadLiteral (size : AccessSize) (signed : Bool) (rt : Reg) (address : UInt64)
  | loadPair (size : AccessSize) (signed : Bool) (rt rt2 : Reg) (addr : Address)
  | storePair (size : AccessSize) (rt rt2 : Reg) (addr : Address)
  | branch (target : UInt64)
  | branchLink (target : UInt64)
  | branchCond (cond : Cond) (target : UInt64)
  | compareBranch (wide nonzero : Bool) (rt : Reg) (target : UInt64)
  | testBranch (bit : Nat) (nonzero : Bool) (rt : Reg) (target : UInt64)
  | branchRegister (kind : BranchKind) (rn : Reg)
  | svc (imm : Nat)
  | brk (imm : Nat)
  | mrs (rt : Reg) (reg : SysReg)
  | msr (rt : Reg) (reg : SysReg)
  | invalidateInstructionCache (rt : Reg)
  | dataCacheZero (rt : Reg)
  | nop
  | undefined
deriving DecidableEq, Repr

namespace Instr

def isTerminal : Instr → Bool
  | branch .. | branchLink .. | branchCond .. | compareBranch .. | testBranch ..
  | branchRegister .. | svc .. | brk .. | invalidateInstructionCache .. | undefined => true
  | _ => false

/-- The branch target known without running the instruction. -/
def branchTarget? : Instr → Option UInt64
  | branch target | branchLink target | branchCond _ target | compareBranch _ _ _ target
  | testBranch _ _ _ target => some target
  | _ => none

def mayFallThrough : Instr → Bool
  | branch .. | branchLink .. | branchRegister .. => false
  | _ => true

end Instr

open Text in
def Reg.text : Reg → String
  | x n => tuple "X" [nat n]
  | sp => "Sp"
  | zr => "Zr"

open Text in
def Operand2.text : Operand2 → String
  | imm value => tuple "Imm" [nat value.toNat]
  | shifted rm shift amount =>
    record "Shifted" [("rm", rm.text), ("shift", shift.name), ("amount", nat amount)]
  | extended rm extend amount =>
    record "Extended" [("rm", rm.text), ("extend", extend.name), ("shift", nat amount)]

def LogicOp.name : LogicOp → String
  | and => "And"
  | orr => "Orr"
  | eor => "Eor"

def MoveWideOp.name : MoveWideOp → String
  | movn => "Movn"
  | movz => "Movz"
  | movk => "Movk"

def BitfieldOp.name : BitfieldOp → String
  | sbfm => "Sbfm"
  | bfm => "Bfm"
  | ubfm => "Ubfm"

def CondSelectOp.name : CondSelectOp → String
  | csel => "Csel"
  | csinc => "Csinc"
  | csinv => "Csinv"
  | csneg => "Csneg"

open Text in
def CompareOperand.text : CompareOperand → String
  | imm value => tuple "Imm" [nat value]
  | reg rm => tuple "Reg" [rm.text]

def ReverseKind.name : ReverseKind → String
  | rev16 => "Rev16"
  | rev32 => "Rev32"
  | rev => "Rev"

def BranchKind.name : BranchKind → String
  | br => "Br"
  | blr => "Blr"
  | ret => "Ret"

def IndexMode.name : IndexMode → String
  | offset => "Offset"
  | preIndex => "PreIndex"
  | postIndex => "PostIndex"

open Text in
def Offset.text : Offset → String
  | imm bytes => tuple "Imm" [int bytes]
  | reg rm extend amount =>
    record "Reg" [("rm", rm.text), ("extend", extend.name), ("shift", nat amount)]

open Text in
def Address.text (addr : Address) : String :=
  record "Address"
    [("base", addr.base.text), ("offset", addr.offset.text), ("mode", addr.mode.name)]

def SysReg.name : SysReg → String
  | nzcv => "Nzcv"
  | fpcr => "Fpcr"
  | fpsr => "Fpsr"
  | tpidrEl0 => "TpidrEl0"
  | tpidrroEl0 => "TpidrroEl0"
  | cntvctEl0 => "CntvctEl0"
  | cntpctEl0 => "CntpctEl0"
  | cntfrqEl0 => "CntfrqEl0"
  | ctrEl0 => "CtrEl0"
  | dczidEl0 => "DczidEl0"

open Text in
def Instr.text : Instr → String
  | addSub wide sub setFlags rd rn operand =>
    record "AddSub" [("sf", bool wide), ("sub", bool sub), ("set_flags", bool setFlags),
      ("rd", rd.text), ("rn", rn.text), ("operand", operand.text)]
  | addSubCarry wide sub setFlags rd rn rm =>
    record "AddSubCarry" [("sf", bool wide), ("sub", bool sub), ("set_flags", bool setFlags),
      ("rd", rd.text), ("rn", rn.text), ("rm", rm.text)]
  | logical wide op invert setFlags rd rn operand =>
    record "Logical" [("sf", bool wide), ("op", op.name), ("invert", bool invert),
      ("set_flags", bool setFlags), ("rd", rd.text), ("rn", rn.text),
      ("operand", operand.text)]
  | moveWide wide op rd imm16 shift =>
    record "MoveWide" [("sf", bool wide), ("op", op.name), ("rd", rd.text),
      ("imm16", nat imm16), ("shift", nat shift)]
  | adr rd target => record "Adr" [("rd", rd.text), ("target", nat target.toNat)]
  | bitfield wide op rd rn immr imms =>
    record "Bitfield" [("sf", bool wide), ("op", op.name), ("rd", rd.text), ("rn", rn.text),
      ("immr", nat immr), ("imms", nat imms)]
  | extract wide rd rn rm lsb =>
    record "Extract" [("sf", bool wide), ("rd", rd.text), ("rn", rn.text), ("rm", rm.text),
      ("lsb", nat lsb)]
  | shiftVariable wide shift rd rn rm =>
    record "ShiftVariable" [("sf", bool wide), ("shift", shift.name), ("rd", rd.text),
      ("rn", rn.text), ("rm", rm.text)]
  | divide wide signed rd rn rm =>
    record "Divide" [("sf", bool wide), ("signed", bool signed), ("rd", rd.text),
      ("rn", rn.text), ("rm", rm.text)]
  | mulAdd wide sub rd rn rm ra =>
    record "MulAdd" [("sf", bool wide), ("sub", bool sub), ("rd", rd.text), ("rn", rn.text),
      ("rm", rm.text), ("ra", ra.text)]
  | mulAddLong signed sub rd rn rm ra =>
    record "MulAddLong" [("signed", bool signed), ("sub", bool sub), ("rd", rd.text),
      ("rn", rn.text), ("rm", rm.text), ("ra", ra.text)]
  | mulHigh signed rd rn rm =>
    record "MulHigh" [("signed", bool signed), ("rd", rd.text), ("rn", rn.text),
      ("rm", rm.text)]
  | countLeadingZeros wide rd rn =>
    record "CountLeadingZeros" [("sf", bool wide), ("rd", rd.text), ("rn", rn.text)]
  | reverse wide kind rd rn =>
    record "Reverse" [("sf", bool wide), ("kind", kind.name), ("rd", rd.text),
      ("rn", rn.text)]
  | condSelect wide op rd rn rm cond =>
    record "CondSelect" [("sf", bool wide), ("op", op.name), ("rd", rd.text), ("rn", rn.text),
      ("rm", rm.text), ("cond", cond.name)]
  | condCompare wide negative rn operand nzcv cond =>
    record "CondCompare" [("sf", bool wide), ("negative", bool negative), ("rn", rn.text),
      ("operand", operand.text), ("nzcv", nat nzcv), ("cond", cond.name)]
  | load size signed wide rt addr =>
    record "Load" [("size", size.name), ("signed", bool signed), ("sf", bool wide),
      ("rt", rt.text), ("addr", addr.text)]
  | store size rt addr =>
    record "Store" [("size", size.name), ("rt", rt.text), ("addr", addr.text)]
  | loadLiteral size signed rt address =>
    record "LoadLiteral" [("size", size.name), ("signed", bool signed), ("rt", rt.text),
      ("address", nat address.toNat)]
  | loadPair size signed rt rt2 addr =>
    record "LoadPair" [("size", size.name), ("signed", bool signed), ("rt", rt.text),
      ("rt2", rt2.text), ("addr", addr.text)]
  | storePair size rt rt2 addr =>
    record "StorePair" [("size", size.name), ("rt", rt.text), ("rt2", rt2.text),
      ("addr", addr.text)]
  | branch target => record "Branch" [("target", nat target.toNat)]
  | branchLink target => record "BranchLink" [("target", nat target.toNat)]
  | branchCond cond target =>
    record "BranchCond" [("cond", cond.name), ("target", nat target.toNat)]
  | compareBranch wide nonzero rt target =>
    record "CompareBranch" [("sf", bool wide), ("nonzero", bool nonzero), ("rt", rt.text),
      ("target", nat target.toNat)]
  | testBranch bit nonzero rt target =>
    record "TestBranch" [("bit", nat bit), ("nonzero", bool nonzero), ("rt", rt.text),
      ("target", nat target.toNat)]
  | branchRegister kind rn =>
    record "BranchRegister" [("kind", kind.name), ("rn", rn.text)]
  | svc imm => record "Svc" [("imm", nat imm)]
  | brk imm => record "Brk" [("imm", nat imm)]
  | mrs rt reg => record "Mrs" [("rt", rt.text), ("reg", reg.name)]
  | msr rt reg => record "Msr" [("rt", rt.text), ("reg", reg.name)]
  | invalidateInstructionCache rt => record "InvalidateInstructionCache" [("rt", rt.text)]
  | dataCacheZero rt => record "DataCacheZero" [("rt", rt.text)]
  | nop => "Nop"
  | undefined => "Undefined"

end Dynarec.Guest.A64
