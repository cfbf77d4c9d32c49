import Dynarec.Host.Encoding

/-!
# Assembling host code

Instructions are emitted in order, with labels placed between them, and then laid out: label
branches start at their longest form and are shortened in a few passes over the code. Every
absolute address in the code is an immediate, so the bytes can be moved freely.
-/

namespace Dynarec.Host

open IR (Ty)

inductive EncodingError where
  | invalidRegister
  | unsupportedInstruction
  | invalidMemoryOperand
  /-- An instruction or label that cannot be assembled. -/
  | assembly
deriving DecidableEq, Repr

def EncodingError.name : EncodingError → String
  | invalidRegister => "InvalidRegister"
  | unsupportedInstruction => "UnsupportedInstruction"
  | invalidMemoryOperand => "InvalidMemoryOperand"
  | assembly => "AssemblyError"

def EncodingError.message : EncodingError → String
  | invalidRegister => "Invalid register for operation"
  | unsupportedInstruction => "Unsupported instruction or operand combination"
  | invalidMemoryOperand => "Invalid memory operand"
  | assembly => "Assembly error"

def Width.ofBytes (n : Nat) : Except EncodingError Width :=
  match ofBytes? n with
  | some w => .ok w
  | none => .error .invalidMemoryOperand

/-- An emitted instruction, with or without a lock prefix. -/
structure Item where
  instr : Instr
  locked : Bool
deriving Repr

structure Assembler where
  items : Array Item
  /-- The instruction each label stands before, once it is placed. -/
  labels : Array (Option Nat)
  blockLabels : List (Nat × Label)
  /-- The position of a label that no instruction has followed yet. -/
  openLabel : Option Nat
  /-- A lock prefix that waits for the next instruction. -/
  lockNext : Bool

namespace Assembler

def empty : Assembler := ⟨#[], #[], [], none, false⟩

instance : Inhabited Assembler := ⟨empty⟩

def size (a : Assembler) : Nat := a.items.size

def push (a : Assembler) (instr : Instr) : Assembler :=
  { a with items := a.items.push ⟨instr, a.lockNext⟩, lockNext := false }

def newLabel (a : Assembler) : Label × Assembler :=
  (⟨a.labels.size⟩, { a with labels := a.labels.push none })

/-- The label of a basic block, made at its first use. -/
def blockLabel (a : Assembler) (block : Nat) : Label × Assembler :=
  match a.blockLabels.lookup block with
  | some label => (label, a)
  | none =>
    let (label, a) := a.newLabel
    (label, { a with blockLabels := (block, label) :: a.blockLabels })

/-- Give an open label an instruction to stand before. -/
def closeLabel (a : Assembler) : Assembler :=
  let a := if a.openLabel = some a.size then a.push .nop else a
  { a with openLabel := none }

end Assembler

/-! ### Layout -/

namespace Layout

/-- Where a branch goes: to an instruction, or to a fixed address if its label was never placed. -/
inductive Target where
  | item (index : Nat)
  | address (value : Nat)

/-- What the layout needs to know of an instruction. -/
inductive Piece where
  | fixed (bytes : List UInt8)
  | branch (cond : Option CondCode) (locked : Bool) (target : Target)

/-- Where a piece stands. A settled piece keeps its size. -/
structure Slot where
  address : Nat
  size : Nat
  settled : Bool
deriving Inhabited

def shortSize (locked : Bool) : Nat := 2 + locked.toNat

def nearSize (cond : Option CondCode) (locked : Bool) : Nat :=
  (if cond.isSome then 6 else 5) + locked.toNat

/-- Size before the first pass. -/
def initialSize : Piece → Nat
  | .fixed bytes => bytes.length
  | .branch cond _ _ => if cond.isSome then 8 else 6

/-- The slots from `address` on, each piece at its initial size. -/
def initialFrom (address : Nat) : List Piece → List Slot
  | [] => []
  | p :: rest =>
    let settled := match p with
      | .fixed _ => true
      | .branch .. => false
    ⟨address, initialSize p, settled⟩ :: initialFrom (address + initialSize p) rest

def targetAddress (slots : Array Slot) : Target → Nat
  | .item i => (slots.getD i default).address
  | .address a => a

/-- Slot of an unsettled branch that stands at `address`, when the pass has already saved `gained`
bytes before it. -/
def fitBranch (slots : Array Slot) (address gained : Nat) (cond : Option CondCode) (locked : Bool)
    (target : Target) : Slot :=
  let distance : Int := targetAddress slots target - (address + shortSize locked : Nat)
  let distance := match target with
    | .item _ => if 0 ≤ distance then distance - gained else distance
    | .address _ => distance
  if Encoding.fitsByte distance then ⟨address, shortSize locked, true⟩
  else ⟨address, nearSize cond locked, distance < -1920 || 1905 < distance⟩

/-- State of a pass over the code. -/
structure Pass where
  slots : Array Slot
  address : Nat
  gained : Nat
  changed : Bool

def Pass.step (pass : Pass) (i : Nat) (piece : Piece) : Pass :=
  let old := pass.slots.getD i default
  let slots := pass.slots.setIfInBounds i { old with address := pass.address }
  match old.settled, piece with
  | false, .branch cond locked target =>
    let slot := fitBranch slots pass.address pass.gained cond locked target
    { slots := slots.setIfInBounds i slot
      address := pass.address + slot.size
      gained := pass.gained + (old.size - slot.size)
      changed := pass.changed || slot.size != old.size }
  | _, _ => { pass with slots, address := pass.address + old.size }

def Pass.runFrom (pass : Pass) (i : Nat) : List Piece → Pass
  | [] => pass
  | p :: rest => (pass.step i p).runFrom (i + 1) rest

/-- Shorten branches until a pass changes nothing, in at most `passes` passes. -/
def relax (pieces : List Piece) : (passes : Nat) → Array Slot → Array Slot
  | 0, slots => slots
  | passes + 1, slots =>
    let pass := Pass.runFrom ⟨slots, 0, 0, false⟩ 0 pieces
    if pass.changed then relax pieces passes pass.slots else pass.slots

/-- Number of passes made at most. -/
def maxPasses : Nat := 5

/-- The bytes of a piece. A branch that was shortened has none if code before it became shorter
later and took its target, a fixed address, out of reach. -/
def pieceBytes? (slots : Array Slot) (i : Nat) : Piece → Option (List UInt8)
  | .fixed bytes => some bytes
  | .branch cond locked target =>
    let slot := slots.getD i default
    let short := slot.size == shortSize locked
    let distance : Int := targetAddress slots target - (slot.address + slot.size : Nat)
    let bytes := branchBytes cond short distance
    if short && !Encoding.fitsByte distance then none
    else some (if locked then 0xf0 :: bytes else bytes)

/-- The laid out code, if every branch reaches its target. -/
def code? (pieces : List Piece) : Option (List UInt8) :=
  let slots := relax pieces maxPasses (initialFrom 0 pieces).toArray
  (pieces.zipIdx.mapM fun (p, i) => pieceBytes? slots i p).map List.flatten

end Layout

namespace Assembler

/-- A label that was never placed stands for a small fixed address, one more than its index. -/
def target (a : Assembler) (label : Label) : Layout.Target :=
  match a.labels.getD label.index none with
  | some i => .item i
  | none => .address (label.index + 1)

def piece (a : Assembler) (item : Item) : Except EncodingError Layout.Piece :=
  match item.instr with
  | .jmp label => .ok (.branch none item.locked (a.target label))
  | .jcc cond label => .ok (.branch (some cond) item.locked (a.target label))
  | instr =>
    match instr.bytes? with
    | some bytes => .ok (.fixed (if item.locked then 0xf0 :: bytes else bytes))
    | none => .error .assembly

def assemble (a : Assembler) : Except EncodingError (List UInt8) := do
  if a.lockNext then throw .assembly
  match Layout.code? (← a.items.toList.mapM a.piece) with
  | some bytes => return bytes
  | none => throw .assembly

end Assembler

/-! ### Emission -/

/-- An emission step: it may change the code even when it fails. -/
abbrev Asm := ExceptT EncodingError (StateM Assembler)

namespace Asm

def emit (instr : Instr) : Asm Unit := modify (·.push instr)

def gp (r : Reg) : Asm Gp :=
  match r.gp? with
  | some i => pure i
  | none => throw .invalidRegister

def newLabel : Asm Label := modifyGet Assembler.newLabel

def blockLabel (block : Nat) : Asm Label := modifyGet (·.blockLabel block)

/-- Put a label before the next instruction. A label directly after another one is kept apart from
it by an empty instruction. -/
def place (label : Label) : Asm Unit := do
  modify Assembler.closeLabel
  let a ← get
  if (a.labels.getD label.index none).isSome then throw .assembly
  set { a with
    labels := a.labels.setIfInBounds label.index (some a.size)
    openLabel := some a.size }

def finish : Asm (List UInt8) := do
  modify Assembler.closeLabel
  match (← get).assemble with
  | .ok bytes => pure bytes
  | .error e => throw e

def nop : Asm Unit := emit .nop

abbrev mov (ty : Ty) (dst src : Reg) : Asm Unit := do
  emit (.mov ty (← gp dst) (← gp src))

abbrev movImm (dst : Reg) (value : UInt64) : Asm Unit := do
  emit (.movImm (← gp dst) value)

abbrev load (width : Width) (dst base : Reg) (disp : Int32) : Asm Unit := do
  let base ← gp base
  emit (.load width (← gp dst) base disp)

abbrev store (width : Width) (base : Reg) (disp : Int32) (src : Reg) : Asm Unit := do
  let base ← gp base
  emit (.store width base disp (← gp src))

/-- The operand type of a full-width memory access; narrow ones are not supported. -/
def wordType (width : Width) : Asm Ty :=
  match width with
  | .b32 => pure .i32
  | .b64 => pure .i64
  | _ => throw .unsupportedInstruction

abbrev storeImm (width : Width) (base : Reg) (disp imm : Int32) : Asm Unit := do
  let base ← gp base
  emit (.storeImm (← wordType width) base disp imm)

abbrev movzx (width : Width) (dst src : Reg) : Asm Unit := do
  emit (.movzx width (← gp dst) (← gp src))

abbrev movsx (ty : Ty) (width : Width) (dst src : Reg) : Asm Unit := do
  emit (.movsx ty width (← gp dst) (← gp src))

abbrev alu (op : AluOp) (ty : Ty) (dst src : Reg) : Asm Unit := do
  emit (.alu op ty (← gp dst) (← gp src))

abbrev aluImm (op : AluOp) (ty : Ty) (dst : Reg) (imm : Int32) : Asm Unit := do
  emit (.aluImm op ty (← gp dst) imm)

/-- The amount is one byte and is not reduced to the operand width. -/
abbrev shift (op : ShiftOp) (ty : Ty) (dst : Reg) (amount : Nat) : Asm Unit := do
  let dst ← gp dst
  if amount < 256 then emit (.shift op ty dst amount.toUInt8) else throw .assembly

abbrev shiftCl (op : ShiftOp) (ty : Ty) (dst : Reg) : Asm Unit := do
  emit (.shiftCl op ty (← gp dst))

abbrev neg (ty : Ty) (dst : Reg) : Asm Unit := do
  emit (.neg ty (← gp dst))

abbrev not (ty : Ty) (dst : Reg) : Asm Unit := do
  emit (.not ty (← gp dst))

abbrev bswap (ty : Ty) (dst : Reg) : Asm Unit := do
  emit (.bswap ty (← gp dst))

abbrev bsr (ty : Ty) (dst src : Reg) : Asm Unit := do
  emit (.bsr ty (← gp dst) (← gp src))

abbrev mulWide (signed : Bool) (src : Reg) : Asm Unit := do
  emit (.mulWide signed (← gp src))

/-- Extend the accumulator into the register above it, then divide by `src`. -/
abbrev div (signed : Bool) (ty : Ty) (src : Reg) : Asm Unit := do
  emit (if signed then .signExtendAcc ty else .alu .xor .i32 Gp.dx Gp.dx)
  emit (.divide signed ty (← gp src))

abbrev setcc (cond : CondCode) (dst : Reg) : Asm Unit := do
  emit (.setcc cond (← gp dst))

abbrev cmov (zero : Bool) (ty : Ty) (dst src : Reg) : Asm Unit := do
  emit (.cmov zero ty (← gp dst) (← gp src))

abbrev cmpMemImm (width : Width) (base : Reg) (disp imm : Int32) : Asm Unit := do
  let base ← gp base
  emit (.cmpMemImm (← wordType width) base disp imm)

abbrev subMemImm (width : Width) (base : Reg) (disp imm : Int32) : Asm Unit := do
  let base ← gp base
  emit (.subMemImm (← wordType width) base disp imm)

/-- Locked exchange-add. The lock is requested before the source register is looked at, so it
passes to the next instruction if there is no such register. -/
abbrev lockedExchangeAdd (base src : Reg) : Asm Unit := do
  let base ← gp base
  modify ({ · with lockNext := true })
  emit (.exchangeAdd base (← gp src))

abbrev loadIndexed (dst table index : Reg) : Asm Unit := do
  let table ← gp table
  let index ← gp index
  emit (.loadIndexed (← gp dst) table index)

def push (reg : Reg) : Asm Unit := do
  emit (.push (← gp reg))

def pop (reg : Reg) : Asm Unit := do
  emit (.pop (← gp reg))

abbrev callReg (reg : Reg) : Asm Unit := do
  emit (.callReg (← gp reg))

abbrev jmpReg (reg : Reg) : Asm Unit := do
  emit (.jmpReg (← gp reg))

abbrev jmpMem (base : Reg) : Asm Unit := do
  emit (.jmpMem (← gp base))

abbrev jmp (target : Label) : Asm Unit := emit (.jmp target)

abbrev jcc (cond : CondCode) (target : Label) : Asm Unit := emit (.jcc cond target)

abbrev ret : Asm Unit := emit .ret

end Asm

end Dynarec.Host
