import Dynarec.IR.Basic
import Dynarec.Text.Hex

/-!
# Functions under compilation

A function is a pool of operands, a pool of operations and a list of basic blocks. A block is a
linked list of operations that ends in a terminator. Every operand knows the operations that read
it and those that write it.
-/

namespace Dynarec.IR

/-- What an operand stands for: a numbered local, a constant, a guest register, or any value. -/
inductive OperandKind where
  | local_ (index : Nat)
  | constant (value : UInt64)
  | register (reg : GuestReg)
  | undefined
deriving DecidableEq, Repr, Inhabited

open Text in
def OperandKind.text : OperandKind → String
  | local_ index => tuple "Local" [nat index]
  | constant value => tuple "Constant" [nat value.toNat]
  | register reg => tuple "Register" [reg.text]
  | undefined => "Undefined"

structure Operand where
  kind : OperandKind
  ty : Ty
  /-- The operations that read it, each once. -/
  uses : List OpId
  /-- The operations that write it. -/
  defs : List OpId
deriving Repr, Inhabited

namespace Operand

def constant? (o : Operand) : Option UInt64 :=
  match o.kind with
  | .constant value => some value
  | _ => none

def local? (o : Operand) : Option Nat :=
  match o.kind with
  | .local_ index => some index
  | _ => none

def isConstant (o : Operand) : Bool := o.constant?.isSome

end Operand

structure Operation where
  inst : Instruction
  dest : Option OperandId
  /-- Source slots; the first `count` of them are in use. -/
  slots : Vector OperandId 4
  count : Nat
  block : BlockId
  prev : Option OpId
  next : Option OpId
  /-- Whether the operation has not been removed. -/
  live : Bool
deriving Repr

namespace Operation

instance : Inhabited Operation where
  default :=
    { inst := .copy, dest := none, slots := Vector.replicate 4 ⟨0⟩, count := 0, block := ⟨0⟩
      prev := none, next := none, live := false }

def sources (op : Operation) : List OperandId := op.slots.toList.take op.count

def source? (op : Operation) (i : Nat) : Option OperandId := op.sources[i]?

/-- Sources in their slots; unused slots name operand 0. -/
def pack (sources : List OperandId) : Vector OperandId 4 :=
  Vector.ofFn fun i => sources.getD i ⟨0⟩

end Operation

structure BasicBlock where
  first : Option OpId
  last : Option OpId
  predecessors : List BlockId
deriving Repr, Inhabited

structure Function where
  operands : Array Operand
  operations : Array Operation
  blocks : Array BasicBlock
  constants : List ((UInt64 × Ty) × OperandId)
  /-- Guest register operands, the oldest first. -/
  registers : List (GuestReg × OperandId)
  undefined : List (Ty × OperandId)
  localCount : Nat
  /-- Guest address of the first instruction. -/
  guestAddress : UInt64
deriving Repr, Inhabited

namespace Function

/-- A function with an empty entry block. -/
def ofAddress (address : UInt64) : Function where
  operands := #[]
  operations := #[]
  blocks := #[⟨none, none, []⟩]
  constants := []
  registers := []
  undefined := []
  localCount := 0
  guestAddress := address

def entry : BlockId := ⟨0⟩

variable (f : Function)

def operand (id : OperandId) : Operand := f.operands.getD id.index default

def operation (id : OpId) : Operation := f.operations.getD id.index default

def block (id : BlockId) : BasicBlock := f.blocks.getD id.index default

def hasOperand (id : OperandId) : Bool := id.index < f.operands.size

def hasOperation (id : OpId) : Bool := id.index < f.operations.size

def hasBlock (id : BlockId) : Bool := id.index < f.blocks.size

def blockCount : Nat := f.blocks.size

def operandCount : Nat := f.operands.size

/-- Number of operations that have not been removed. -/
def operationCount : Nat := f.operations.foldl (fun n op => if op.live then n + 1 else n) 0

def blockIds : List BlockId := (List.range f.blocks.size).map (⟨·⟩)

/-! ### Operands -/

def addBlock : BlockId × Function :=
  (⟨f.blocks.size⟩, { f with blocks := f.blocks.push ⟨none, none, []⟩ })

def addOperand (kind : OperandKind) (ty : Ty) : OperandId × Function :=
  (⟨f.operands.size⟩, { f with operands := f.operands.push ⟨kind, ty, [], []⟩ })

/-- A new local. Locals are numbered from zero without gaps. -/
def newLocal (ty : Ty) : OperandId × Function :=
  let (id, f) := f.addOperand (.local_ f.localCount) ty
  (id, { f with localCount := f.localCount + 1 })

/-- The operand of a constant, cut to its type. -/
def constant (value : UInt64) (ty : Ty) : OperandId × Function :=
  let value := value &&& ty.mask
  match f.constants.lookup (value, ty) with
  | some id => (id, f)
  | none =>
    let (id, f) := f.addOperand (.constant value) ty
    (id, { f with constants := ((value, ty), id) :: f.constants })

/-- The operand of a guest register. It keeps the type of its first mention. -/
def register (reg : GuestReg) (ty : Ty) : OperandId × Function :=
  match f.registers.lookup reg with
  | some id => (id, f)
  | none =>
    let (id, f) := f.addOperand (.register reg) ty
    (id, { f with registers := f.registers ++ [(reg, id)] })

/-- The operand of an unspecified value. -/
def undefinedOperand (ty : Ty) : OperandId × Function :=
  match f.undefined.lookup ty with
  | some id => (id, f)
  | none =>
    let (id, f) := f.addOperand .undefined ty
    (id, { f with undefined := (ty, id) :: f.undefined })

/-! ### Blocks -/

/-- The operations from `cursor` on, at most `fuel` of them. -/
def chain : (fuel : Nat) → (cursor : Option OpId) → List OpId
  | 0, _ => []
  | _, none => []
  | fuel + 1, some id => id :: chain fuel (f.operation id).next

def blockOperations (b : BlockId) : List OpId :=
  f.chain f.operations.size (f.block b).first

/-- The last operation of a block, if it is a terminator. -/
def terminator? (b : BlockId) : Option OpId :=
  (f.block b).last.filter fun id => (f.operation id).inst.isTerminator

/-- The blocks that a block may continue at, without duplicates. -/
def successors (b : BlockId) : List BlockId :=
  match (f.terminator? b).map fun id => (f.operation id).inst with
  | some (.branch target) => [target]
  | some (.branchIf then_ otherwise) => if then_ = otherwise then [then_] else [then_, otherwise]
  | _ => []

def predecessors (b : BlockId) : List BlockId := (f.block b).predecessors

def computePredecessors : Function :=
  let edges := f.blockIds.map fun b => (b, f.successors b)
  { f with
    blocks := f.blocks.mapIdx fun i blk =>
      { blk with predecessors := (edges.filter fun e => e.2.contains ⟨i⟩).map (·.1) } }

/-- Whether every branch goes to a block of the function. -/
def branchesExist : Bool :=
  f.blockIds.all fun b => (f.successors b).all f.hasBlock

def allOperations : List OpId := f.blockIds.flatMap f.blockOperations

/-- Whether some operation needs the host. -/
def callsHost : Bool :=
  f.allOperations.any fun id =>
    (f.operation id).inst.isNativeCall || (f.operation id).inst == .countCall

/-! ### Text -/

def operandText (id : OperandId) : String :=
  match (f.operand id).kind with
  | .local_ index => "v" ++ Text.nat index
  | .constant value => "#" ++ Text.hex value.toNat
  | .register (.gpr n) => "r" ++ Text.nat n
  | .register (.flag flag) => flag.name
  | .undefined => "undef"

/-- What the text shows between the name of an instruction and its sources. -/
def parameterText : Instruction → String
  | .compare cmp => "." ++ cmp.name
  | .loadContext field | .storeContext field => " [" ++ field.text ++ "]"
  | .branch target => " " ++ target.label
  | .branchIf then_ otherwise => " " ++ then_.label ++ ", " ++ otherwise.label ++ " if"
  | _ => ""

def operationText (op : Operation) : String :=
  let dest := match op.dest with
    | some d => f.operandText d ++ ":" ++ (f.operand d).ty.name ++ " = "
    | none => ""
  let sources := String.intercalate ", " (op.sources.map f.operandText)
  "  " ++ dest ++ op.inst.name ++ parameterText op.inst ++
    (if op.sources.isEmpty then "" else " " ++ sources) ++ "\n"

def blockText (b : BlockId) : String :=
  b.label ++ ": preds " ++ Text.list ((f.predecessors b).map BlockId.text) ++ "\n" ++
    String.join ((f.blockOperations b).map fun id => f.operationText (f.operation id))

def text : String :=
  "function @" ++ Text.hex f.guestAddress.toNat ++ ":\n" ++ String.join (f.blockIds.map f.blockText)

end Function

end Dynarec.IR
