import Dynarec.Lift.Builder

/-!
# Meaning of A64 instructions
-/

namespace Dynarec.Lift.A64

open Guest (AccessSize Cond Flag Opcode Shift)
open Guest.A64
open IR (Ty)

def lr : Nat := 30

/-- Bytes cleared by a data cache zero. -/
def zeroBlock : Nat := 64

/-- Cache type seen by the guest: lines of 64 bytes. -/
def cacheType : UInt64 := 0x8444c004

/-- Size of a data cache zero seen by the guest. -/
def zeroBlockId : UInt64 := 4

def width (wide : Bool) : Ty := if wide then .i64 else .i32

/-- The low `len` bits. -/
def lowMask (len : Nat) : UInt64 := (1 <<< len - 1 : Nat).toUInt64

def read (reg : Reg) (ty : Ty) : Build Value := do
  match reg.slot? with
  | some n => do
      let value ← gpr n
      resize value ty
  | none => const 0 ty

def write (reg : Reg) (value : Value) : Build Unit :=
  match reg.slot? with
  | some n => writeGpr n value
  | none => pure ()

def shiftInstruction : Shift → IR.Instruction
  | .lsl => .shiftLeft
  | .lsr => .shiftRightLogical
  | .asr => .shiftRightArithmetic
  | .ror => .rotateRight

def shiftImm (value : Value) (shift : Shift) (amount : Nat) : Build Value := do
  if amount = 0 then return value
  binaryImm (shiftInstruction shift) value amount.toUInt64

def extend (rm : Reg) (extend : Extend) (ty : Ty) : Build Value := do
  let value ← read rm ty
  match extend, ty with
  | .uxtb, _ => emit .zeroExtend8 ty [value]
  | .uxth, _ => emit .zeroExtend16 ty [value]
  | .sxtb, _ => emit .signExtend8 ty [value]
  | .sxth, _ => emit .signExtend16 ty [value]
  | .uxtw, .i64 => do
      let low ← resize value .i32
      resize low .i64
  | .sxtw, .i64 => emit .signExtend32 ty [value]
  | _, _ => return value

def operand2 (operand : Operand2) (ty : Ty) : Build Value := do
  match operand with
  | .imm value => const value ty
  | .shifted rm shift amount => do
      let value ← read rm ty
      shiftImm value shift amount
  | .extended rm ext amount => do
      let value ← extend rm ext ty
      shiftImm value .lsl amount

/-- The offset of an address, unless it is a plain base register. -/
def offset? (addr : Address) : Build (Option Value) :=
  match addr.offset with
  | .imm bytes =>
    if bytes = 0 ∧ addr.mode = .offset then return none
    else some <$> const (UInt64.ofInt bytes) .i64
  | .reg rm ext amount => do
      let value ← extend rm ext .i64
      some <$> shiftImm value .lsl amount

/-- The address accessed at an offset, and the new value of the base register if it is updated. -/
def displace (mode : IndexMode) (base offset : Value) : Build (Value × Option Value) := do
  let displaced ← binary .add base offset
  match mode with
  | .offset => return (displaced, none)
  | .preIndex => return (displaced, some displaced)
  | .postIndex => return (base, some displaced)

def address (addr : Address) : Build (Value × Option Value) := do
  let base ← read addr.base .i64
  let offset ← offset? addr
  match offset with
  | none => return (base, none)
  | some offset => displace addr.mode base offset

def writeBack (addr : Address) (base? : Option Value) : Build Unit :=
  match base? with
  | some base => write addr.base base
  | none => pure ()

/-- Load a value and extend it. -/
def loadValue (size : AccessSize) (signed : Bool) (ty : Ty) (address : Value) (pc : UInt64) :
    Build Value := do
  let raw ← load size address .i64 pc
  match signed, size with
  | true, .byte => emit .signExtend8 ty [raw]
  | true, .half => emit .signExtend16 ty [raw]
  | true, .word => emit .signExtend32 .i64 [raw]
  | _, _ => resize raw ty

def readWordExtended (reg : Reg) (signed : Bool) : Build Value := do
  let value ← read reg .i32
  if signed then emit .signExtend32 .i64 [value] else resize value .i64

def branchOn (taken : Value) (target next : UInt64) : Build Unit :=
  add (.branchOn taken target next)

/-- The field of `len` bits of `src` that starts at bit `immr`, moved down to bit 0. -/
def fieldDown (op : BitfieldOp) (rd : Reg) (src : Value) (immr len : Nat) : Build Value :=
  let bits := src.ty.bits
  match op with
  | .ubfm => do
      let shifted ← binaryImm .shiftRightLogical src immr.toUInt64
      binaryImm .and shifted (lowMask len)
  | .sbfm => do
      let up ← binaryImm .shiftLeft src (bits - immr - len).toUInt64
      binaryImm .shiftRightArithmetic up (bits - len).toUInt64
  | .bfm => do
      let dst ← read rd src.ty
      let shifted ← binaryImm .shiftRightLogical src immr.toUInt64
      let field ← binaryImm .and shifted (lowMask len)
      let kept ← binaryImm .and dst (~~~lowMask len)
      binary .or kept field

/-- The low `len` bits of `src`, moved up to `position`. -/
def fieldUp (op : BitfieldOp) (rd : Reg) (src : Value) (position len : Nat) : Build Value :=
  let bits := src.ty.bits
  match op with
  | .ubfm => do
      let field ← binaryImm .and src (lowMask len)
      binaryImm .shiftLeft field position.toUInt64
  | .sbfm => do
      let up ← binaryImm .shiftLeft src (bits - len).toUInt64
      let field ← binaryImm .shiftRightArithmetic up (bits - len).toUInt64
      binaryImm .shiftLeft field position.toUInt64
  | .bfm => do
      let dst ← read rd src.ty
      let low ← binaryImm .and src (lowMask len)
      let field ← binaryImm .shiftLeft low position.toUInt64
      let kept ← binaryImm .and dst (~~~(lowMask len <<< position.toUInt64))
      binary .or kept field

/-- Move a field of bits: down to bit 0 if `immr ≤ imms`, else up. -/
def moveField (op : BitfieldOp) (rd : Reg) (src : Value) (immr imms : Nat) : Build Value :=
  if immr ≤ imms then fieldDown op rd src immr (imms - immr + 1)
  else fieldUp op rd src (src.ty.bits - immr) (imms + 1)

def bitfield (wide : Bool) (op : BitfieldOp) (rd rn : Reg) (immr imms : Nat) : Build Unit := do
  let bits := (width wide).bits
  let src ← read rn (width wide)
  let result ← moveField op rd src (immr % bits) (imms % bits)
  write rd result

def reverse (wide : Bool) (kind : ReverseKind) (rn : Reg) : Build Value := do
  let ty := width wide
  let src ← read rn ty
  match kind with
  | .rev => unary .byteSwap src
  | .rev32 => do
      let swapped ← unary .byteSwap src
      binaryImm .rotateRight swapped 32
  | .rev16 => do
      let lowBytes := 0x00ff00ff00ff00ff &&& ty.mask
      let high ← binaryImm .shiftRightLogical src 8
      let high ← binaryImm .and high lowBytes
      let low ← binaryImm .and src lowBytes
      let low ← binaryImm .shiftLeft low 8
      binary .or high low

/-- The flags with their places in a packed status word. -/
def flagBits : List (Flag × UInt64) := [(.n, 31), (.z, 30), (.c, 29), (.v, 28)]

def readNZCV : Build Value := do
  let zero ← const 0 .i64
  flagBits.foldlM (fun packed (f, bit) => do
    let value ← flag f
    let wide ← resize value .i64
    let shifted ← binaryImm .shiftLeft wide bit
    binary .or packed shifted) zero

def writeNZCV (value : Value) : Build Unit :=
  flagBits.forM fun (f, bit) => do
    let shifted ← binaryImm .shiftRightLogical value bit
    let masked ← binaryImm .and shifted 1
    let narrow ← resize masked .i32
    setFlag f narrow

/-- Call the host for an instruction that has no meaning. -/
def raiseUndefined (op : Opcode) : Build Unit :=
  raise .undefined op.address op.word.toUInt64 op.next

def compareOperand (operand : CompareOperand) (ty : Ty) : Build Value :=
  match operand with
  | .imm value => const value.toUInt64 ty
  | .reg rm => read rm ty

/-- The carry into a sum or a difference of two values. -/
def plainCarry (sub : Bool) : CarryIn := if sub then .one else .zero

def condCompare (wide negative : Bool) (rn : Reg) (operand : CompareOperand) (nzcv : Nat)
    (cond : Cond) : Build Unit := do
  let ty := width wide
  let taken ← condition cond
  let a ← read rn ty
  let m ← compareOperand operand ty
  let sum ← addOrSub (!negative) a m (plainCarry (!negative))
  [(Flag.n, sum.n, 3), (.z, sum.z, 2), (.c, sum.c, 1), (.v, sum.v, 0)].forM
    fun (f, computed, bit) => do
      let fallback ← const (nzcv.testBit bit).toUInt64 .i32
      let value ← select taken computed fallback
      setFlag f value

def readSystem (reg : SysReg) : Build Value :=
  match reg with
  | .nzcv => readNZCV
  | .fpcr => loadContext .fpcr .i64
  | .fpsr => loadContext .fpsr .i64
  | .tpidrEl0 => loadContext .tpidrEl0 .i64
  | .tpidrroEl0 => loadContext .tpidrroEl0 .i64
  | .cntvctEl0 | .cntpctEl0 => emit .readCounter .i64 []
  | .cntfrqEl0 => emit .readFrequency .i64 []
  | .ctrEl0 => const cacheType .i64
  | .dczidEl0 => const zeroBlockId .i64

def writeSystem (op : Opcode) (reg : SysReg) (value : Value) : Build Unit :=
  match reg with
  | .nzcv => writeNZCV value
  | .fpcr => storeContext .fpcr value
  | .fpsr => storeContext .fpsr value
  | .tpidrEl0 => storeContext .tpidrEl0 value
  | _ => raiseUndefined op

def logicalInstruction : LogicOp → IR.Instruction
  | .and => .and
  | .orr => .or
  | .eor => .xor

def invertIf (invert : Bool) (value : Value) : Build Value :=
  if invert then unary .not value else return value

def setLogicalFlags (result : Value) : Build Unit := do
  setNZ result
  let zero ← const 0 .i32
  setFlag .c zero
  setFlag .v zero

/-- A constant moved into part of a register. -/
def wideValue (op : MoveWideOp) (rd : Reg) (ty : Ty) (imm16 shift : Nat) : Build Value :=
  let placed := imm16.toUInt64 <<< shift.toUInt64
  match op with
  | .movz => const placed ty
  | .movn => const (~~~placed) ty
  | .movk => do
      let old ← read rd ty
      let kept ← binaryImm .and old (~~~(0xffff <<< shift.toUInt64))
      binaryImm .or kept placed

/-- What a conditional selection takes if its condition does not hold. -/
def alternative (op : CondSelectOp) (m : Value) : Build Value :=
  match op with
  | .csel => return m
  | .csinc => binaryImm .add m 1
  | .csinv => unary .not m
  | .csneg => unary .negate m

/-- Write the address of the following instruction to the link register. -/
def writeLink (next : UInt64) : Build Unit := do
  let link ← const next .i64
  writeGpr lr link

/-- Type of a loaded or stored value in a register. -/
def transferType (size : AccessSize) (signed : Bool) : Ty :=
  if size = .double ∨ signed then .i64 else .i32

def lift (op : Opcode) (instr : Instr) : Build Unit :=
  let pc := op.address
  let next := op.next
  match instr with
  | .addSub wide sub setFlags rd rn operand => do
      let ty := width wide
      let a ← read rn ty
      let m ← operand2 operand ty
      if setFlags then
        let sum ← addOrSub sub a m (plainCarry sub)
        setNZCV sum
        write rd sum.result
      else
        let result ← binary (if sub then .subtract else .add) a m
        write rd result
  | .addSubCarry wide sub setFlags rd rn rm => do
      let ty := width wide
      let a ← read rn ty
      let m ← read rm ty
      let carry ← flag .c
      let sum ← addOrSub sub a m (.value carry)
      onlyIf setFlags (setNZCV sum)
      write rd sum.result
  | .logical wide op invert setFlags rd rn operand => do
      let ty := width wide
      let a ← read rn ty
      let m ← operand2 operand ty
      let m ← invertIf invert m
      let result ← binary (logicalInstruction op) a m
      onlyIf setFlags (setLogicalFlags result)
      write rd result
  | .moveWide wide op rd imm16 shift => do
      let result ← wideValue op rd (width wide) imm16 shift
      write rd result
  | .adr rd target => do
      let value ← const target .i64
      write rd value
  | .bitfield wide op rd rn immr imms => bitfield wide op rd rn immr imms
  | .extract wide rd rn rm lsb => do
      let ty := width wide
      let low ← read rm ty
      if lsb = 0 then write rd low
      else
        let high ← read rn ty
        let low ← binaryImm .shiftRightLogical low lsb.toUInt64
        let high ← binaryImm .shiftLeft high (ty.bits - lsb).toUInt64
        let result ← binary .or high low
        write rd result
  | .shiftVariable wide shift rd rn rm => do
      let ty := width wide
      let value ← read rn ty
      let amount ← read rm ty
      let result ← binary (shiftInstruction shift) value amount
      write rd result
  | .divide wide signed rd rn rm => do
      let ty := width wide
      let n ← read rn ty
      let m ← read rm ty
      let result ← binary (if signed then .divideSigned else .divideUnsigned) n m
      write rd result
  | .mulAdd wide sub rd rn rm ra => do
      let ty := width wide
      let n ← read rn ty
      let m ← read rm ty
      let product ← binary .multiply n m
      if ra = .zr ∧ !sub then write rd product
      else
        let acc ← read ra ty
        let result ← binary (if sub then .subtract else .add) acc product
        write rd result
  | .mulAddLong signed sub rd rn rm ra => do
      let n ← readWordExtended rn signed
      let m ← readWordExtended rm signed
      let product ← binary .multiply n m
      let acc ← read ra .i64
      let result ← binary (if sub then .subtract else .add) acc product
      write rd result
  | .mulHigh signed rd rn rm => do
      let n ← read rn .i64
      let m ← read rm .i64
      let result ← binary (if signed then .multiplyHighSigned else .multiplyHighUnsigned) n m
      write rd result
  | .countLeadingZeros wide rd rn => do
      let value ← read rn (width wide)
      let result ← unary .countLeadingZeros value
      write rd result
  | .reverse wide kind rd rn => do
      let result ← reverse wide kind rn
      write rd result
  | .condSelect wide op rd rn rm cond => do
      let ty := width wide
      let taken ← condition cond
      let n ← read rn ty
      let m ← read rm ty
      let m ← alternative op m
      let result ← select taken n m
      write rd result
  | .condCompare wide negative rn operand nzcv cond =>
    condCompare wide negative rn operand nzcv cond
  | .load size signed wide rt addr => do
      let (address, base?) ← address addr
      let value ← loadValue size signed (width wide) address pc
      write rt value
      writeBack addr base?
  | .store size rt addr => do
      let (address, base?) ← address addr
      let value ← read rt (transferType size false)
      store size address value pc
      writeBack addr base?
  | .loadLiteral size signed rt address => do
      let address ← const address .i64
      let value ← loadValue size signed (transferType size signed) address pc
      write rt value
  | .loadPair size signed rt rt2 addr => do
      let (address, base?) ← address addr
      let ty := transferType size signed
      let first ← loadValue size signed ty address pc
      let secondAddress ← binaryImm .add address size.bytes.toUInt64
      let second ← loadValue size signed ty secondAddress pc
      write rt first
      write rt2 second
      writeBack addr base?
  | .storePair size rt rt2 addr => do
      let (address, base?) ← address addr
      let ty := transferType size false
      let first ← read rt ty
      let second ← read rt2 ty
      store size address first pc
      let secondAddress ← binaryImm .add address size.bytes.toUInt64
      store size secondAddress second pc
      writeBack addr base?
  | .branch target => dispatchTo target
  | .branchLink target => do
      writeLink next
      dispatchTo target
  | .branchCond cond target => do
      if cond.isAlways then dispatchTo target
      else
        let taken ← condition cond
        branchOn taken target next
  | .compareBranch wide nonzero rt target => do
      let value ← read rt (width wide)
      let taken ← compareImm (if nonzero then .ne else .eq) value 0
      branchOn taken target next
  | .testBranch bit nonzero rt target => do
      let value ← read rt .i64
      let tested ← binaryImm .and value (1 <<< (bit % 64).toUInt64)
      let taken ← compareImm (if nonzero then .ne else .eq) tested 0
      branchOn taken target next
  | .branchRegister kind rn => do
      let target ← read rn .i64
      onlyIf (kind = .blr) (writeLink next)
      dispatch target
  | .svc imm => raise .supervisorCall pc imm.toUInt64 next
  | .brk imm => raise .breakpoint pc imm.toUInt64 next
  | .mrs rt reg => do
      let value ← readSystem reg
      write rt value
  | .msr rt reg => do
      let value ← read rt .i64
      writeSystem op reg value
  | .invalidateInstructionCache rt => do
      let address ← read rt .i64
      effect .invalidateCacheLine [address]
      dispatchTo next
  | .dataCacheZero rt => do
      let address ← read rt .i64
      let base ← binaryImm .and address (~~~(zeroBlock - 1).toUInt64)
      let zero ← const 0 .i64
      (List.range (zeroBlock / 8)).forM fun i => do
        let target ← binaryImm .add base (8 * i).toUInt64
        store .double target zero pc
  | .nop => pure ()
  | .undefined => raiseUndefined op

end Dynarec.Lift.A64
