import Dynarec.Lift.Builder

/-!
# Meaning of A32 instructions

Every instruction runs under its condition. The program counter reads as the address of the
instruction plus eight; writing it ends the instruction with a dispatch.
-/

namespace Dynarec.Lift.A32

open Guest (AccessSize Opcode Shift)
open Guest.A32

/-- Bits kept of a value written to the program counter. -/
def alignedMask : UInt64 := 0xfffffffc

/-- Bits kept of the target of a branch with exchange. -/
def exchangeMask : UInt64 := 0xfffffffe

def read (reg : Reg) (pc : UInt64) : Build Value :=
  if reg = Guest.A32.pc then const (pc + 8) .i32 else gpr reg

/-- Go on at the address that a value has in the bits of `mask`. -/
def dispatchMasked (value : Value) (mask : UInt64) : Build Unit := do
  let target ← binaryImm .and value mask
  dispatch target

/-- Write a register; a write of the program counter ends the instruction. -/
def write (reg : Reg) (value : Value) : Build Unit :=
  if reg = Guest.A32.pc then dispatchMasked value alignedMask else writeGpr reg value

def shiftDown (value : Value) (n : Nat) : Build Value :=
  if n = 0 then return value else binaryImm .shiftRightLogical value n.toUInt64

/-- Bit `i` of a value, 0 or 1. -/
def bitOf (value : Value) (i : Nat) : Build Value := do
  let shifted ← shiftDown value i
  binaryImm .and shifted 1

/-- A value shifted right by 32 places is zero. -/
def shiftRight (value : Value) (n : Nat) : Build Value :=
  if 32 ≤ n then const 0 .i32 else binaryImm .shiftRightLogical value n.toUInt64

/-- A shifted register with the carry-out of the shifter; none leaves the carry as it is. -/
def shifted (operand : ShiftedReg) (pc : UInt64) : Build (Value × Option Value) := do
  let value ← read operand.rm pc
  match operand.shift with
  | .imm _ 0 => return (value, none)
  | .imm .lsl n => do
      let carry ← bitOf value (32 - n)
      let result ← binaryImm .shiftLeft value n.toUInt64
      return (result, some carry)
  | .imm .lsr n => do
      let carry ← bitOf value (n - 1)
      let result ← shiftRight value n
      return (result, some carry)
  | .imm .asr n => do
      let carry ← bitOf value (min n 32 - 1)
      let result ← binaryImm .shiftRightArithmetic value (min n 31).toUInt64
      return (result, some carry)
  | .imm .ror n => do
      let carry ← bitOf value (n - 1)
      let result ← binaryImm .rotateRight value n.toUInt64
      return (result, some carry)
  | .rrx => do
      let carryIn ← flag .c
      let top ← binaryImm .shiftLeft carryIn 31
      let rest ← binaryImm .shiftRightLogical value 1
      let carry ← binaryImm .and value 1
      let result ← binary .or top rest
      return (result, some carry)

def shifterOperand (operand : ShifterOperand) (pc : UInt64) : Build (Value × Option Value) :=
  match operand with
  | .imm value none => do
      let value ← const value.toUInt64 .i32
      return (value, none)
  | .imm value (some carry) => do
      let value ← const value.toUInt64 .i32
      let carry ← const carry.toUInt64 .i32
      return (value, some carry)
  | .reg operand => shifted operand pc

def offset (offset : Offset) (pc : UInt64) : Build Value :=
  match offset with
  | .imm value => const value.toUInt64 .i32
  | .reg operand => Prod.fst <$> shifted operand pc

/-- The address accessed and the displaced base register. -/
def address (rn : Reg) (off : Offset) (indexing : Indexing) (pc : UInt64) :
    Build (Value × Value) := do
  let base ← read rn pc
  let off ← offset off pc
  let displaced ← binary (if indexing.add then .add else .subtract) base off
  return (if indexing.preIndex then displaced else base, displaced)

def logical (opcode : DataOp) (n m : Value) : Build Value := do
  match opcode with
  | .and | .tst => binary .and n m
  | .eor | .teq => binary .xor n m
  | .orr => binary .or n m
  | .mov => return m
  | .bic => do
      let inverted ← unary .not m
      binary .and n inverted
  | _ => unary .not m

def arithmetic (opcode : DataOp) (n m carry : Value) : Build FlaggedSum :=
  match opcode with
  | .add | .cmn => addWithCarry n m .zero
  | .sub | .cmp => subWithCarry n m .one
  | .rsb => subWithCarry m n .one
  | .adc => addWithCarry n m (.value carry)
  | .sbc => subWithCarry n m (.value carry)
  | _ => subWithCarry m n (.value carry)

/-- Flags of a logical operation; without a carry of the shifter the carry stays as it is. -/
def setLogicalFlags (result : Value) (shifterCarry : Option Value) : Build Unit := do
  setNZ result
  match shifterCarry with
  | some c => setFlag .c c
  | none => pure ()

/-- The result of an operation on two values, with its flags set if that is asked for. -/
def dataResult (opcode : DataOp) (setFlags : Bool) (n m carry : Value)
    (shifterCarry : Option Value) : Build Value :=
  if opcode.isLogical then do
    let result ← logical opcode n m
    onlyIf setFlags (setLogicalFlags result shifterCarry)
    return result
  else do
    let sum ← arithmetic opcode n m carry
    onlyIf setFlags (setNZCV sum)
    return sum.result

def dataProcessing (opcode : DataOp) (setFlags : Bool) (rd rn : Reg) (operand : ShifterOperand)
    (pc : UInt64) : Build Unit := do
  let (m, shifterCarry) ← shifterOperand operand pc
  let n ← read rn pc
  let carry ← flag .c
  let result ← dataResult opcode setFlags n m carry shifterCarry
  onlyIf (!opcode.isTest) (write rd result)

/-- Offset of the first access and change of the base register of a block transfer. -/
def blockOffsets (mode : BlockMode) (count : Nat) : Int × Int :=
  let size : Int := 4 * count
  match mode with
  | .incrementAfter => (0, size)
  | .incrementBefore => (4, size)
  | .decrementAfter => (4 - size, -size)
  | .decrementBefore => (-size, -size)

/-- The registers of a block transfer, the lowest first. -/
def blockRegisters (registers : Nat) : List Reg :=
  (List.finRange 16).filter fun r => registers.testBit r

/-- Transfer the registers in order from `offset` on; what was loaded is written later. -/
def transfer (load_ : Bool) (base : Value) (pc : UInt64) :
    (offset : Int) → List Reg → Build (List (Reg × Value))
  | _, [] => return []
  | offset, reg :: rest => do
      let address ← binaryImm .add base (UInt64.ofInt offset)
      if load_ then
        let value ← load .word address .i32 pc
        let more ← transfer load_ base pc (offset + 4) rest
        return (reg, value) :: more
      else
        let value ← read reg pc
        store .word address value pc
        transfer load_ base pc (offset + 4) rest

/-- Add a constant to a base register. -/
def moveBase (rn : Reg) (base : Value) (change : Int) : Build Unit := do
  let updated ← binaryImm .add base (UInt64.ofInt change)
  writeGpr rn updated

def loadStoreMultiple (load_ : Bool) (rn : Reg) (registers : Nat) (mode : BlockMode)
    (writeback : Bool) (pc : UInt64) : Build Unit := do
  let regs := blockRegisters registers
  let base ← read rn pc
  let (start, change) := blockOffsets mode regs.length
  let loaded ← transfer load_ base pc start regs
  onlyIf (writeback && !(load_ && registers.testBit rn)) (moveBase rn base change)
  loaded.forM fun (reg, value) => write reg value

/-- The product plus the value of a pair of registers, if that is asked for. -/
def accumulateLong (accumulate : Bool) (product : Value) (rdLo rdHi : Reg) (pc : UInt64) :
    Build Value :=
  if accumulate then do
    let lo ← read rdLo pc
    let hi ← read rdHi pc
    let lo ← resize lo .i64
    let hi ← resize hi .i64
    let hi ← binaryImm .shiftLeft hi 32
    let acc ← binary .or hi lo
    binary .add product acc
  else return product

def multiplyLong (signed accumulate setFlags : Bool) (rdLo rdHi rn rm : Reg) (pc : UInt64) :
    Build Unit := do
  let widen := if signed then IR.Instruction.signExtend32 else .zeroExtend32
  let n ← read rn pc
  let m ← read rm pc
  let n ← emit widen .i64 [n]
  let m ← emit widen .i64 [m]
  let product ← binary .multiply n m
  let product ← accumulateLong accumulate product rdLo rdHi pc
  onlyIf setFlags (setNZ product)
  let lo ← resize product .i32
  let high ← binaryImm .shiftRightLogical product 32
  let hi ← resize high .i32
  writeGpr rdLo lo
  writeGpr rdHi hi

def loadExtra (kind : ExtraKind) (address : Value) (pc : UInt64) : Build Value := do
  match kind with
  | .half => load .half address .i32 pc
  | .signedByte => do
      let raw ← load .byte address .i32 pc
      unary .signExtend8 raw
  | .signedHalf => do
      let raw ← load .half address .i32 pc
      unary .signExtend16 raw

/-- A constant, or half of a register replaced by one. -/
def wideValue (top : Bool) (rd : Reg) (imm16 : Nat) (pc : UInt64) : Build Value :=
  if top then do
    let old ← read rd pc
    let low ← binaryImm .and old 0xffff
    binaryImm .or low (imm16.toUInt64 <<< 16)
  else const imm16.toUInt64 .i32

def accumulate (wanted : Bool) (product : Value) (ra : Reg) (pc : UInt64) : Build Value :=
  if wanted then do
    let acc ← read ra pc
    binary .add product acc
  else return product

def writeLink (next : UInt64) : Build Unit := do
  let ret ← const next .i32
  writeGpr lr ret

def coprocessorField : CoprocReg → IR.Field
  | .tpidrUrw => .tpidrEl0
  | .tpidrUro => .tpidrroEl0

/-- Add the steps of an instruction whose condition holds. -/
def lift (op : Opcode) (instr : Op) : Build Unit :=
  let pc := op.address
  let next := op.next
  let undefined := raise .undefined pc op.word.toUInt64 next
  match instr with
  | .dataProcessing opcode setFlags rd rn operand =>
    dataProcessing opcode setFlags rd rn operand pc
  | .moveWide top rd imm16 => do
      let result ← wideValue top rd imm16 pc
      writeGpr rd result
  | .multiply accumulates setFlags rd rn rm ra => do
      let n ← read rn pc
      let m ← read rm pc
      let product ← binary .multiply n m
      let result ← accumulate accumulates product ra pc
      onlyIf setFlags (setNZ result)
      writeGpr rd result
  | .multiplyLong signed accumulate setFlags rdLo rdHi rn rm =>
    multiplyLong signed accumulate setFlags rdLo rdHi rn rm pc
  | .countLeadingZeros rd rm => do
      let value ← read rm pc
      let result ← unary .countLeadingZeros value
      writeGpr rd result
  | .loadStore load_ size rt rn off indexing => do
      let (access, displaced) ← address rn off indexing pc
      if load_ then
        let value ← load size access .i32 pc
        onlyIf (indexing.writeback && rn != rt) (writeGpr rn displaced)
        write rt value
      else
        let value ← read rt pc
        store size access value pc
        onlyIf indexing.writeback (writeGpr rn displaced)
  | .loadStoreExtra load_ kind rt rn off indexing => do
      let (access, displaced) ← address rn off indexing pc
      if load_ then
        let value ← loadExtra kind access pc
        onlyIf (indexing.writeback && rn != rt) (writeGpr rn displaced)
        writeGpr rt value
      else
        let value ← read rt pc
        store .half access value pc
        onlyIf indexing.writeback (writeGpr rn displaced)
  | .loadStoreMultiple load_ rn registers mode writeback =>
    loadStoreMultiple load_ rn registers mode writeback pc
  | .branch link target => do
      onlyIf link (writeLink next)
      dispatchTo target
  | .branchExchange link rm => do
      let target ← read rm pc
      onlyIf link (writeLink next)
      dispatchMasked target exchangeMask
  | .svc imm => raise .supervisorCall pc imm.toUInt64 next
  | .bkpt imm => raise .breakpoint pc imm.toUInt64 next
  | .readCoprocessor rt reg => do
      let value ← loadContext (coprocessorField reg) .i64
      let value ← resize value .i32
      write rt value
  | .writeCoprocessor rt .tpidrUrw => do
      let value ← read rt pc
      let value ← resize value .i64
      storeContext .tpidrEl0 value
  | .writeCoprocessor _ .tpidrUro => undefined
  | .nop => pure ()
  | .undefined => undefined

def code (mode : Guest.Mode) (op : Opcode) (instr : Instr) : Code :=
  conditional mode instr.cond (lift op instr.op)

end Dynarec.Lift.A32
