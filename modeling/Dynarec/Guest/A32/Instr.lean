import Dynarec.Guest.Basic
import Dynarec.Text.Record

/-!
# A32 instructions

Every A32 instruction carries a condition. Registers are plain numbers below 16; 15 names the
program counter.
-/

namespace Dynarec.Guest.A32

abbrev Reg := Fin 16

/-- The register named by the low four bits. -/
def Reg.ofBits (bits : Nat) : Reg := Fin.ofNat 16 bits

def pc : Reg := 15

def lr : Reg := 14

def sp : Reg := 13

inductive DataOp where
  | and | eor | sub | rsb | add | adc | sbc | rsc | tst | teq | cmp | cmn | orr | mov | bic | mvn
deriving DecidableEq, Repr

namespace DataOp

/-- The operation named by the low four bits. -/
def ofBits (bits : Nat) : DataOp :=
  match bits % 16 with
  | 0 => and
  | 1 => eor
  | 2 => sub
  | 3 => rsb
  | 4 => add
  | 5 => adc
  | 6 => sbc
  | 7 => rsc
  | 8 => tst
  | 9 => teq
  | 10 => cmp
  | 11 => cmn
  | 12 => orr
  | 13 => mov
  | 14 => bic
  | _ => mvn

/-- Comparisons only update flags. -/
def isTest : DataOp → Bool
  | tst | teq | cmp | cmn => true
  | _ => false

/-- Logical operations take C from the shifter and leave V alone. -/
def isLogical : DataOp → Bool
  | and | eor | tst | teq | orr | mov | bic | mvn => true
  | _ => false

def name : DataOp → String
  | and => "And"
  | eor => "Eor"
  | sub => "Sub"
  | rsb => "Rsb"
  | add => "Add"
  | adc => "Adc"
  | sbc => "Sbc"
  | rsc => "Rsc"
  | tst => "Tst"
  | teq => "Teq"
  | cmp => "Cmp"
  | cmn => "Cmn"
  | orr => "Orr"
  | mov => "Mov"
  | bic => "Bic"
  | mvn => "Mvn"

end DataOp

/-- Shift of a register operand by a constant; `rrx` rotates by one through the carry. -/
inductive ImmShift where
  | imm (shift : Shift) (amount : Nat)
  | rrx
deriving DecidableEq, Repr

structure ShiftedReg where
  rm : Reg
  shift : ImmShift
deriving DecidableEq, Repr

/-- Second operand of data processing instructions. A rotated immediate has a carry-out. -/
inductive ShifterOperand where
  | imm (value : UInt32) (carry : Option Bool)
  | reg (shifted : ShiftedReg)
deriving DecidableEq, Repr

inductive Offset where
  | imm (value : Nat)
  | reg (shifted : ShiftedReg)
deriving DecidableEq, Repr

inductive ExtraKind where
  | half | signedByte | signedHalf
deriving DecidableEq, Repr

/-- Addressing modes of block transfers. -/
inductive BlockMode where
  | incrementAfter | incrementBefore | decrementAfter | decrementBefore
deriving DecidableEq, Repr

/-- Thread identifier registers; the second one is read-only. -/
inductive CoprocReg where
  | tpidrUrw | tpidrUro
deriving DecidableEq, Repr

/-- How a load or store forms its address and updates the base register. -/
structure Indexing where
  add : Bool
  preIndex : Bool
  writeback : Bool
deriving DecidableEq, Repr

inductive Op where
  | dataProcessing (opcode : DataOp) (setFlags : Bool) (rd rn : Reg) (operand : ShifterOperand)
  | moveWide (top : Bool) (rd : Reg) (imm16 : Nat)
  | multiply (accumulate setFlags : Bool) (rd rn rm ra : Reg)
  | multiplyLong (signed accumulate setFlags : Bool) (rdLo rdHi rn rm : Reg)
  | countLeadingZeros (rd rm : Reg)
  | loadStore (load : Bool) (size : AccessSize) (rt rn : Reg) (offset : Offset)
      (indexing : Indexing)
  | loadStoreExtra (load : Bool) (kind : ExtraKind) (rt rn : Reg) (offset : Offset)
      (indexing : Indexing)
  | loadStoreMultiple (load : Bool) (rn : Reg) (registers : Nat) (mode : BlockMode)
      (writeback : Bool)
  | branch (link : Bool) (target : UInt64)
  | branchExchange (link : Bool) (rm : Reg)
  | svc (imm : Nat)
  | bkpt (imm : Nat)
  | readCoprocessor (rt : Reg) (reg : CoprocReg)
  | writeCoprocessor (rt : Reg) (reg : CoprocReg)
  | nop
  | undefined
deriving DecidableEq, Repr

namespace Op

def isTerminal : Op → Bool
  | branch .. | branchExchange .. | svc .. | bkpt .. | undefined => true
  | dataProcessing opcode _ rd _ _ => rd = pc && !opcode.isTest
  | loadStore load _ rt .. => load && rt = pc
  | loadStoreMultiple load _ registers .. => load && registers.testBit pc
  | _ => false

/-- The branch target known without running the operation. -/
def branchTarget? : Op → Option UInt64
  | branch _ target => some target
  | _ => none

end Op

structure Instr where
  cond : Cond
  op : Op
deriving DecidableEq, Repr

namespace Instr

def mayFallThrough (instr : Instr) : Bool :=
  instr.cond != .al || !instr.op.isTerminal

end Instr

open Text in
def ImmShift.text : ImmShift → String
  | imm shift amount => tuple "Imm" [shift.name, nat amount]
  | rrx => "Rrx"

open Text in
def ShiftedReg.text (s : ShiftedReg) : String :=
  record "ShiftedReg" [("rm", nat s.rm), ("shift", s.shift.text)]

open Text in
def ShifterOperand.text : ShifterOperand → String
  | imm value carry =>
    record "Imm" [("value", nat value.toNat), ("carry", option bool carry)]
  | reg shifted => tuple "Reg" [shifted.text]

open Text in
def Offset.text : Offset → String
  | imm value => tuple "Imm" [nat value]
  | reg shifted => tuple "Reg" [shifted.text]

def ExtraKind.name : ExtraKind → String
  | half => "Half"
  | signedByte => "SignedByte"
  | signedHalf => "SignedHalf"

def BlockMode.name : BlockMode → String
  | incrementAfter => "IncrementAfter"
  | incrementBefore => "IncrementBefore"
  | decrementAfter => "DecrementAfter"
  | decrementBefore => "DecrementBefore"

def CoprocReg.name : CoprocReg → String
  | tpidrUrw => "TpidrUrw"
  | tpidrUro => "TpidrUro"

open Text in
def Indexing.fields (i : Indexing) : List (String × String) :=
  [("add", bool i.add), ("pre_index", bool i.preIndex), ("writeback", bool i.writeback)]

open Text in
def Op.text : Op → String
  | dataProcessing opcode setFlags rd rn operand =>
    record "DataProcessing" [("opcode", opcode.name), ("set_flags", bool setFlags),
      ("rd", nat rd), ("rn", nat rn), ("operand", operand.text)]
  | moveWide top rd imm16 =>
    record "MoveWide" [("top", bool top), ("rd", nat rd), ("imm16", nat imm16)]
  | multiply accumulate setFlags rd rn rm ra =>
    record "Multiply" [("accumulate", bool accumulate), ("set_flags", bool setFlags),
      ("rd", nat rd), ("rn", nat rn), ("rm", nat rm), ("ra", nat ra)]
  | multiplyLong signed accumulate setFlags rdLo rdHi rn rm =>
    record "MultiplyLong" [("signed", bool signed), ("accumulate", bool accumulate),
      ("set_flags", bool setFlags), ("rd_lo", nat rdLo), ("rd_hi", nat rdHi), ("rn", nat rn),
      ("rm", nat rm)]
  | countLeadingZeros rd rm => record "CountLeadingZeros" [("rd", nat rd), ("rm", nat rm)]
  | loadStore load size rt rn offset indexing =>
    record "LoadStore" ([("load", bool load), ("size", size.name), ("rt", nat rt),
      ("rn", nat rn), ("offset", offset.text)] ++ indexing.fields)
  | loadStoreExtra load kind rt rn offset indexing =>
    record "LoadStoreExtra" ([("load", bool load), ("kind", kind.name), ("rt", nat rt),
      ("rn", nat rn), ("offset", offset.text)] ++ indexing.fields)
  | loadStoreMultiple load rn registers mode writeback =>
    record "LoadStoreMultiple" [("load", bool load), ("rn", nat rn),
      ("registers", nat registers), ("mode", mode.name), ("writeback", bool writeback)]
  | branch link target =>
    record "Branch" [("link", bool link), ("target", nat target.toNat)]
  | branchExchange link rm => record "BranchExchange" [("link", bool link), ("rm", nat rm)]
  | svc imm => record "Svc" [("imm", nat imm)]
  | bkpt imm => record "Bkpt" [("imm", nat imm)]
  | readCoprocessor rt reg => record "ReadCoprocessor" [("rt", nat rt), ("reg", reg.name)]
  | writeCoprocessor rt reg => record "WriteCoprocessor" [("rt", nat rt), ("reg", reg.name)]
  | nop => "Nop"
  | undefined => "Undefined"

def Instr.text (instr : Instr) : String :=
  instr.cond.name ++ " " ++ instr.op.text

end Dynarec.Guest.A32
