import Dynarec.Code.AddressTable
import Dynarec.Context
import Dynarec.Error
import Dynarec.Host.Convention
import Dynarec.Host.Symbol
import Dynarec.IR.Liveness
import Dynarec.Session

/-!
# Code generation

Lowering of functions without phis to host instructions. Every local has a stack slot. Registers
are allocated block by block: a local that is live after its block is stored as soon as it is
defined, so nothing has to be moved between blocks; any other is stored only when its register is
taken away or may be overwritten by a host call. Registers 0, 1 and 2 are never allocated.

A dispatch stores the guest address, looks at the interrupt flag and the synchronization counter,
and then jumps through the address table.
-/

namespace Dynarec.Host

open IR (BlockId Comparison Field Function Instruction LocalSet OperandId Operation Ty)
open Code (AddressTable)

/-- An operand as an instruction sees it. -/
inductive Value where
  | reg (r : Reg)
  | imm (value : UInt64)
deriving DecidableEq, Repr

namespace Value

/-- The signed 32-bit immediate that extends to a 64-bit value. -/
def sign32? (v : UInt64) : Option Int32 :=
  if v.toInt64.toInt32.toInt64 = v.toInt64 then some v.toInt64.toInt32 else none

/-- The value as an immediate of an operation, if it fits. -/
def imm32? (value : Value) (ty : Ty) : Option Int32 :=
  match value, ty with
  | imm v, .i32 => some v.toUInt32.toInt32
  | imm v, .i64 => sign32? v
  | reg _, _ => none

/-- The value as an immediate that is stored, if it fits. -/
def storeImm? (value : Value) (width : Width) : Option Int32 :=
  match value, width with
  | imm v, .b32 => some v.toUInt32.toInt32
  | imm v, _ => sign32? v
  | reg _, _ => none

end Value

def condCode : Comparison → CondCode
  | .eq => .e
  | .ne => .ne
  | .ult => .b
  | .ule => .be
  | .ugt => .a
  | .uge => .ae
  | .slt => .l
  | .sle => .le
  | .sgt => .g
  | .sge => .ge

namespace Codegen

/-- What is fixed while a function is lowered. -/
structure Env where
  func : Function
  frame : Frame
  liveness : IR.Liveness

structure State where
  asm : Assembler
  regs : RegisterFile
  /-- Locals whose register is newer than their slot. -/
  dirty : LocalSet
  block : BlockId
  /-- The register that a local being redefined had before. -/
  stale : Option Reg
  table : AddressTable
  session : Session

/-- Lowering keeps what it did to the table and the statistics even when it fails. -/
abbrev Gen := ReaderT Env (ExceptT CompileError (StateM State))

def asm {α : Type} (emission : Asm α) : Gen α := do
  let (result, code) := emission.run (← get).asm
  modify ({ · with asm := code })
  match result with
  | .ok a => pure a
  | .error e => throw (.encoding e)

def liftRegs {α : Type} (result : Except RegisterError α) : Gen α :=
  match result with
  | .ok a => pure a
  | .error e => throw (.registers e)

def setRegs (regs : RegisterFile) : Gen Unit := modify ({ · with regs })

/-! ### Registers -/

abbrev slot (local_ : Nat) : Gen Int32 := do
  return Int32.ofNat ((← read).frame.slotOffset local_)

abbrev storeSlot (local_ : Nat) (r : Reg) : Gen Unit := do
  asm (Asm.store .b64 .rsp (← slot local_) r)

/-- Store a local to its slot because its register is needed. -/
abbrev spill (local_ : Nat) (r : Reg) : Gen Unit := do
  if (← get).dirty.contains local_ then
    storeSlot local_ r
    modify fun s => { s with dirty := s.dirty.erase local_, session := s.session.spillStore }

def allocate (local_ : Nat) : Gen Reg := do
  let ((r, evicted), regs) ← liftRegs ((← get).regs.allocate local_)
  setRegs regs
  match evicted with
  | some victim => spill victim r
  | none => pure ()
  return r

def lock (r : Reg) : Gen Unit := do
  setRegs (← liftRegs ((← get).regs.lock r))

def release (r : Reg) : Gen Unit := do
  setRegs (← liftRegs ((← get).regs.release r))

/-- The register of a local, loaded from its slot if need be, and locked. -/
def useLocal (local_ : Nat) : Gen Reg := do
  let r ← match (← get).regs.holder? local_ with
    | some r => pure r
    | none => do
        let r ← allocate local_
        asm (Asm.load .b64 r .rsp (← slot local_))
        pure r
  lock r
  return r

def operandValue (id : OperandId) : Gen Value := do
  match ((← read).func.operand id).kind with
  | .constant value => return .imm value
  | .undefined => return .imm 0
  | .local_ i => return .reg (← useLocal i)
  | .register r => throw (.invalidIR ("guest register " ++ r.text ++ " survived SSA construction"))

def sourceId (op : Operation) (i : Nat) : Gen OperandId :=
  match op.source? i with
  | some id => pure id
  | none => throw (.invalidIR (op.inst.name ++ " is missing source " ++ Text.nat i))

abbrev source (op : Operation) (i : Nat) : Gen Value := do
  operandValue (← sourceId op i)

abbrev sourceType (op : Operation) (i : Nat) : Gen Ty := do
  return ((← read).func.operand (← sourceId op i)).ty

def constantSource (op : Operation) (i : Nat) : Gen UInt64 := do
  match ((← read).func.operand (← sourceId op i)).constant? with
  | some value => return value
  | none => throw (.invalidIR (op.inst.name ++ " expects a constant in source " ++ Text.nat i))

def destOf (op : Operation) : Gen OperandId :=
  match op.dest with
  | some d => pure d
  | none => throw (.invalidIR (op.inst.name ++ " has no destination"))

def localOf (dest : OperandId) : Gen Nat := do
  match ((← read).func.operand dest).local? with
  | some i => return i
  | none => throw (.invalidIR (dest.label ++ " is not a local"))

abbrev typeOf (id : OperandId) : Gen Ty := do
  return ((← read).func.operand id).ty

/-- A locked register for a new value of `dest`. Its old register is given up now, or once the new
value is there if it is being read. -/
def define (dest : OperandId) : Gen Reg := do
  let i ← localOf dest
  match (← get).regs.holder? i with
  | some old =>
    if (← get).regs.isLocked old then modify ({ · with stale := some old })
    else release old
  | none => pure ()
  let r ← allocate i
  lock r
  return r

/-- End a definition: a local that is live after the block goes to its slot. -/
def finishDef (dest : OperandId) (r : Reg) : Gen Unit := do
  let i ← localOf dest
  match (← get).stale with
  | some old =>
    modify ({ · with stale := none })
    release old
  | none => pure ()
  if ((← read).liveness.after (← get).block).contains i then
    storeSlot i r
    modify fun s => { s with dirty := s.dirty.erase i }
  else
    modify fun s => { s with dirty := s.dirty.insert i }

/-- Give up the registers that a host call may overwrite. -/
abbrev flushCallerSaved : Gen Unit := do
  ((← get).regs.ownedIn callerSavedSet).forM fun (r, i) => do
    spill i r
    release r

/-! ### Moves and calls -/

def movValue (dst : Reg) (value : Value) : Gen Unit :=
  match value with
  | .reg src => if src = dst then pure () else asm (Asm.mov .i64 dst src)
  | .imm v => asm (Asm.movImm dst v)

/-- The value in a register; `scratch` takes an immediate. -/
def materialize (value : Value) (scratch : Reg) : Gen Reg :=
  match value with
  | .reg r => pure r
  | .imm v => do
      asm (Asm.movImm scratch v)
      return scratch

abbrev frameSize : Gen Int32 := do
  return Int32.ofNat (← read).frame.size

abbrev leaveFrame : Gen Unit := do
  asm (Asm.aluImm .add .i64 .rsp (← frameSize))

abbrev countCall : Gen Unit := modify fun s => { s with session := s.session.nativeCall }

abbrev callAddress (target : HostCall) : Gen Unit := do
  asm (Asm.movImm .rax target.address)
  asm (Asm.callReg .rax)
  countCall

/-- Call the host. The second argument goes through register 0, since each argument may sit in the
register of the other. -/
def call (target : HostCall) (args : List Value) : Gen Unit := do
  flushCallerSaved
  match args with
  | [] => pure ()
  | [a] => movValue .rdi a
  | [a, b] =>
    movValue .rax b
    movValue .rdi a
    asm (Asm.mov .i64 .rsi .rax)
  | _ => throw (.codegen (Text.nat args.length ++ " arguments to a native call"))
  callAddress target

/-- Call the host for the result of an operation. -/
abbrev callForValue (op : Operation) (target : HostCall) (args : List Value) : Gen Unit := do
  call target args
  let dest ← destOf op
  let ty ← typeOf dest
  let rd ← define dest
  asm (Asm.mov ty rd returnReg)
  finishDef dest rd

/-! ### Operations -/

def unary (op : Operation) (body : Ty → Reg → Value → Gen Unit) : Gen Unit := do
  let a ← source op 0
  let dest ← destOf op
  let ty ← typeOf dest
  let rd ← define dest
  body ty rd a
  finishDef dest rd

def binary (op : Operation) (body : Ty → Reg → Value → Value → Gen Unit) : Gen Unit := do
  let a ← source op 0
  let b ← source op 1
  let dest ← destOf op
  let ty ← typeOf dest
  let rd ← define dest
  body ty rd a b
  finishDef dest rd

def alu (op : AluOp) (ty : Ty) (rd : Reg) (a b : Value) : Gen Unit := do
  movValue rd a
  match b.imm32? ty with
  | some imm => asm (Asm.aluImm op ty rd imm)
  | none => do
      let rb ← materialize b .rax
      asm (Asm.alu op ty rd rb)

def shift (op : ShiftOp) (ty : Ty) (rd : Reg) (a b : Value) : Gen Unit := do
  movValue rd a
  match b with
  | .imm amount => asm (Asm.shift op ty rd (amount.toNat % ty.bits))
  | .reg amount =>
    asm (Asm.mov .i64 .rcx amount)
    asm (Asm.shiftCl op ty rd)

abbrev multiplyHigh (signed : Bool) (ty : Ty) (rd : Reg) (a b : Value) : Gen Unit := do
  movValue .rax a
  movValue .rcx b
  asm (Asm.mulWide signed .rcx)
  asm (Asm.mov ty rd .rdx)

/-- A zero divisor gives zero, and division by minus one is negation. -/
def divide (signed : Bool) (ty : Ty) (rd : Reg) (a b : Value) : Gen Unit := do
  let done ← asm Asm.newLabel
  movValue .rax a
  movValue .rcx b
  asm (Asm.movImm rd 0)
  asm (Asm.alu .test ty .rcx .rcx)
  asm (Asm.jcc .e done)
  if signed then
    let proper ← asm Asm.newLabel
    asm (Asm.aluImm .cmp ty .rcx (-1))
    asm (Asm.jcc .ne proper)
    asm (Asm.mov ty rd .rax)
    asm (Asm.neg ty rd)
    asm (Asm.jmp done)
    asm (Asm.place proper)
  asm (Asm.div signed ty .rcx)
  asm (Asm.mov ty rd .rax)
  asm (Asm.place done)

/-- The index of the highest set bit is minus one if there is none. -/
abbrev countLeadingZeros (ty : Ty) (rd : Reg) (a : Value) : Gen Unit := do
  let ra ← materialize a .rax
  asm (Asm.bsr ty .rax ra)
  asm (Asm.movImm .rdx 0xffffffffffffffff)
  asm (Asm.cmov true .i64 .rax .rdx)
  asm (Asm.movImm rd (ty.bits - 1).toUInt64)
  asm (Asm.alu .sub ty rd .rax)

/-- Whether a comparison holds, in a register that is cleared first. -/
def setIf (cmp : Comparison) (ty : Ty) (rd : Reg) (a b : Value) : Gen Unit := do
  asm (Asm.movImm rd 0)
  let ra ← materialize a .rax
  match b.imm32? ty with
  | some imm => asm (Asm.aluImm .cmp ty ra imm)
  | none => do
      let rb ← materialize b .rdx
      asm (Asm.alu .cmp ty ra rb)
  asm (Asm.setcc (condCode cmp) rd)

abbrev compare (op : Operation) (cmp : Comparison) : Gen Unit := do
  let ty ← sourceType op 0
  binary op fun _ => setIf cmp ty

/-- One of two values, by a condition of type `condTy`. -/
abbrev pick (condTy ty : Ty) (rd : Reg) (c a b : Value) : Gen Unit := do
  movValue rd b
  let ra ← materialize a .rdx
  let rc ← materialize c .rax
  asm (Asm.alu .test condTy rc rc)
  asm (Asm.cmov false ty rd ra)

abbrev select (op : Operation) : Gen Unit := do
  let condTy ← sourceType op 0
  let c ← source op 0
  let a ← source op 1
  let b ← source op 2
  let dest ← destOf op
  let ty ← typeOf dest
  let rd ← define dest
  pick condTy ty rd c a b
  finishDef dest rd

def resize (inst : Instruction) (ty : Ty) (rd : Reg) (a : Value) : Gen Unit := do
  let ra ← materialize a .rax
  match inst with
  | .zeroExtend8 => asm (Asm.movzx .b8 rd ra)
  | .zeroExtend16 => asm (Asm.movzx .b16 rd ra)
  | .signExtend8 => asm (Asm.movsx ty .b8 rd ra)
  | .signExtend16 => asm (Asm.movsx ty .b16 rd ra)
  | .signExtend32 => asm (Asm.movsx ty .b32 rd ra)
  | _ => asm (Asm.mov .i32 rd ra)

def widthOf (bytes : Nat) : Gen Width :=
  match Width.ofBytes bytes with
  | .ok w => pure w
  | .error e => throw (.encoding e)

def contextDisp (offset : Nat) : Int32 := Int32.ofNat offset

abbrev loadContext (op : Operation) (field : Field) : Gen Unit := do
  let dest ← destOf op
  let ty ← typeOf dest
  let width ← widthOf (min field.size (ty.bits / 8))
  let rd ← define dest
  asm (Asm.load width rd contextReg (contextDisp field.offset))
  finishDef dest rd

def storeField (field : Field) (width : Width) (value : Value) : Gen Unit :=
  match value.storeImm? width with
  | some imm => asm (Asm.storeImm width contextReg (contextDisp field.offset) imm)
  | none => do
      let r ← materialize value .rax
      asm (Asm.store width contextReg (contextDisp field.offset) r)

abbrev storeContext (op : Operation) (field : Field) : Gen Unit := do
  let value ← source op 0
  let width ← widthOf field.size
  storeField field width value

/-- Add one to a counter, and compare what it was with the last count below the threshold. -/
abbrev countUp (counter threshold : UInt64) : Gen Unit := do
  asm (Asm.movImm .rax counter)
  asm (Asm.movImm .rcx 1)
  asm (Asm.lockedExchangeAdd .rax .rcx)
  asm (Asm.movImm .rdx (threshold.toNat - 1).toUInt64)
  asm (Asm.alu .cmp .i64 .rcx .rdx)

/-- Count an entry into the block, and ask for a better compilation when the count is reached. -/
abbrev countEntry (op : Operation) : Gen Unit := do
  let counter ← constantSource op 0
  let guest ← constantSource op 1
  let threshold ← constantSource op 2
  flushCallerSaved
  let skip ← asm Asm.newLabel
  countUp counter threshold
  asm (Asm.jcc .ne skip)
  asm (Asm.movImm .rdi guest)
  callAddress .enqueueRejit
  asm (Asm.place skip)

/-! ### Terminators -/

abbrev branch (target : BlockId) (next : Option BlockId) : Gen Unit :=
  if next = some target then pure ()
  else do
    let label ← asm (Asm.blockLabel target.index)
    asm (Asm.jmp label)

def branchOn (ty : Ty) (then_ otherwise : BlockId) (next : Option BlockId) :
    (condition : Value) → Gen Unit
  | .imm c => branch (if c != 0 then then_ else otherwise) next
  | .reg c => do
      asm (Asm.alu .test ty c c)
      let label ← asm (Asm.blockLabel then_.index)
      asm (Asm.jcc .ne label)
      branch otherwise next

abbrev branchIf (op : Operation) (then_ otherwise : BlockId) (next : Option BlockId) :
    Gen Unit := do
  let ty ← sourceType op 0
  branchOn ty then_ otherwise next (← source op 0)

abbrev storePc (target : Value) : Gen Unit := do
  movValue .rax target
  asm (Asm.store .b64 contextReg (contextDisp Context.pcOffset) .rax)

abbrev exit (op : Operation) : Gen Unit := do
  storePc (← source op 0)
  leaveFrame
  asm Asm.ret

/-- Go down one level of the table, for the guest address in register 0. -/
abbrev tableStep (level : Code.Level) : Gen Unit := do
  asm (Asm.mov .i64 .rcx .rax)
  asm (Asm.shift .shr .i64 .rcx level.shift)
  asm (Asm.aluImm .and .i32 .rcx (Int32.ofNat level.mask))
  asm (Asm.loadIndexed .rdx .rdx .rcx)

/-- Look up the guest address in register 0. Addresses without a place in the table are returned
to the caller. -/
def tableWalk : Gen Unit := do
  let table := (← get).table
  let bypass ← asm Asm.newLabel
  asm (Asm.movImm .rcx table.invalidMask)
  asm (Asm.alu .test .i64 .rax .rcx)
  asm (Asm.jcc .ne bypass)
  asm (Asm.movImm .rdx tableRoot)
  table.levels.forM tableStep
  leaveFrame
  asm (Asm.jmpReg .rdx)
  asm (Asm.place bypass)
  leaveFrame
  asm Asm.ret

/-- Jump through the table slot of a known guest address. -/
def tableJump (pc : UInt64) : Gen Unit := do
  let (found, table) := (← get).table.ensure pc
  modify ({ · with table })
  match found with
  | some _ =>
    asm (Asm.movImm .rax (slotAddress pc))
    leaveFrame
    asm (Asm.jmpMem .rax)
  | none =>
    leaveFrame
    asm Asm.ret

/-- Go to `slow` if an interrupt was requested or the synchronization counter runs out. -/
abbrev checkHost (slow : Label) : Gen Unit := do
  asm (Asm.cmpMemImm .b32 contextReg (contextDisp Context.interruptOffset) 0)
  asm (Asm.jcc .ne slow)
  asm (Asm.subMemImm .b32 contextReg (contextDisp Context.syncCounterOffset) 1)
  asm (Asm.jcc .le slow)

def lookUp : (target : Value) → Gen Unit
  | .imm pc => tableJump pc
  | .reg _ => tableWalk

/-- Have the host look at its requests, and return to the caller. -/
abbrev synchronize : Gen Unit := do
  callAddress .checkSynchronization
  asm (Asm.load .b64 .rax contextReg (contextDisp Context.pcOffset))
  leaveFrame
  asm Asm.ret

abbrev dispatch (op : Operation) : Gen Unit := do
  let target ← source op 0
  let slow ← asm Asm.newLabel
  storePc target
  checkHost slow
  lookUp target
  asm (Asm.place slow)
  synchronize

def operation (op : Operation) (next : Option BlockId) : Gen Unit := do
  match op.inst with
  | .copy => unary op fun _ rd a => movValue rd a
  | .add => binary op (alu .add)
  | .subtract => binary op (alu .sub)
  | .multiply => binary op (alu .imul)
  | .and => binary op (alu .and)
  | .or => binary op (alu .or)
  | .xor => binary op (alu .xor)
  | .multiplyHighSigned => binary op (multiplyHigh true)
  | .multiplyHighUnsigned => binary op (multiplyHigh false)
  | .divideSigned => binary op (divide true)
  | .divideUnsigned => binary op (divide false)
  | .shiftLeft => binary op (shift .shl)
  | .shiftRightLogical => binary op (shift .shr)
  | .shiftRightArithmetic => binary op (shift .sar)
  | .rotateRight => binary op (shift .ror)
  | .not => unary op fun ty rd a => do movValue rd a; asm (Asm.not ty rd)
  | .negate => unary op fun ty rd a => do movValue rd a; asm (Asm.neg ty rd)
  | .byteSwap => unary op fun ty rd a => do movValue rd a; asm (Asm.bswap ty rd)
  | .countLeadingZeros => unary op countLeadingZeros
  | .compare cmp => compare op cmp
  | .select => select op
  | .zeroExtend8 | .zeroExtend16 | .zeroExtend32 | .signExtend8 | .signExtend16 | .signExtend32
  | .truncate => unary op (resize op.inst)
  | .loadContext field => loadContext op field
  | .storeContext field => storeContext op field
  | .load size =>
    let address ← source op 0
    callForValue op (.readMemory size) [address]
  | .store size =>
    let address ← source op 0
    let value ← source op 1
    call (.writeMemory size) [address, value]
  | .readCounter => callForValue op .readCounter []
  | .readFrequency => callForValue op .readFrequency []
  | .supervisorCall =>
    let pc ← source op 0
    let payload ← source op 1
    call .supervisorCall [pc, payload]
  | .breakpoint =>
    let pc ← source op 0
    let payload ← source op 1
    call .breakpoint [pc, payload]
  | .undefined =>
    let pc ← source op 0
    let payload ← source op 1
    call .undefinedInstruction [pc, payload]
  | .invalidateCacheLine =>
    let address ← source op 0
    call .invalidateCacheLine [address]
  | .countCall => countEntry op
  | .phi => throw (.invalidIR "phi reached code generation")
  | .branch target => branch target next
  | .branchIf then_ otherwise => branchIf op then_ otherwise next
  | .dispatch => dispatch op
  | .exit => exit op

/-! ### Functions -/

abbrev beginBlock (b : BlockId) : Gen Unit := do
  let env ← read
  modify fun s =>
    { s with
      block := b
      regs := s.regs.reset
      dirty := .ofCapacity env.func.localCount
      stale := none }
  let label ← asm (Asm.blockLabel b.index)
  asm (Asm.place label)

/-- The entry block makes the frame. -/
abbrev enterFrame (b : BlockId) : Gen Unit :=
  if b = Function.entry then do asm (Asm.aluImm .sub .i64 .rsp (← frameSize)) else pure ()

/-- Lower the operations of a block that is followed by `next`. -/
def lowerOperations (b : BlockId) (next : Option BlockId) : Gen Unit := do
  let func := (← read).func
  if (func.terminator? b).isNone then
    throw (.blockLayout (b.label ++ " does not end in a terminator"))
  (func.blockOperations b).forM fun id => do
    operation (func.operation id) next
    modify fun s => { s with regs := s.regs.unlockAll }

def lowerBlock (b : BlockId) (next : Option BlockId) : Gen Unit := do
  beginBlock b
  enterFrame b
  lowerOperations b next

def lowerBlocks : List BlockId → Gen Unit
  | [] => pure ()
  | b :: rest => do
      lowerBlock b rest.head?
      lowerBlocks rest

def lower : Gen (List UInt8) := do
  lowerBlocks (← read).func.blockIds
  let code ← asm Asm.finish
  modify fun s => { s with session := s.session.hostCode code.length }
  return code

end Codegen

structure Generated where
  code : Except CompileError (List UInt8)
  /-- The instructions that the code consists of. -/
  emitted : Assembler
  table : AddressTable
  session : Session

/-- The host code of a function. Table slots that it jumps through are made in `table`. -/
def generate (func : Function) (table : AddressTable) (session : Session) : Generated :=
  let env : Codegen.Env := ⟨func, ⟨func.localCount⟩, .compute func⟩
  let start : Codegen.State :=
    { asm := .empty
      regs := .ofSet allocatableSet
      dirty := .ofCapacity func.localCount
      block := Function.entry
      stale := none
      table
      session }
  let (code, s) := (Codegen.lower env).run start
  ⟨code, s.asm, s.table, s.session⟩

end Dynarec.Host
