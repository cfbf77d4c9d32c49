import Dynarec.IR.Edit
import Dynarec.Lift.Code

/-!
# Code in functions

The steps of an instruction become operations at the end of the current block of a function. A check
for a stopped guest ends the block and goes on in a new one.
-/

namespace Dynarec.Lift

open IR (BlockId Function Instruction OperandId)

structure Assembly where
  f : Function
  /-- The block that operations are added to. -/
  block : BlockId
  /-- Whether that block has its terminator. -/
  terminated : Bool
  /-- The results of the current instruction. -/
  temps : List OperandId

namespace Assembly

def ofAddress (address : UInt64) : Assembly := ⟨.ofAddress address, Function.entry, false, []⟩

def operand (a : Assembly) : Value → OperandId × Assembly
  | .const value ty =>
    let (id, f) := a.f.constant value ty
    (id, { a with f })
  | .reg reg ty =>
    let (id, f) := a.f.register reg ty
    (id, { a with f })
  | .temp i _ => (a.temps.getD i default, a)

def operands (a : Assembly) : List Value → List OperandId × Assembly
  | [] => ([], a)
  | value :: rest =>
    let (id, a) := a.operand value
    let (ids, a) := a.operands rest
    (id :: ids, a)

def newBlock (a : Assembly) : BlockId × Assembly :=
  let (id, f) := a.f.addBlock
  (id, { a with f })

/-- Add operations to another block from now on. -/
def switchTo (a : Assembly) (block : BlockId) : Assembly := { a with block, terminated := false }

/-- Add an operation on operands to the current block. -/
def append (a : Assembly) (inst : Instruction) (dest : Option OperandId)
    (sources : List OperandId) : Assembly :=
  { a with f := (a.f.pushBack a.block inst dest sources).2 }

/-- Add an operation on values to the current block. -/
def push (a : Assembly) (inst : Instruction) (dest : Option OperandId) (sources : List Value) :
    Assembly :=
  let (sources, a) := a.operands sources
  a.append inst dest sources

/-- Add an operation with a new local as its result. -/
def pushLocal (a : Assembly) (inst : Instruction) (ty : IR.Ty) (sources : List Value) :
    OperandId × Assembly :=
  let (dest, f) := a.f.newLocal ty
  (dest, { a with f }.push inst (some dest) sources)

/-- End the current block. -/
def close (a : Assembly) (inst : Instruction) (sources : List Value) : Assembly :=
  { a.push inst none sources with terminated := true }

def dispatchTo (a : Assembly) (address : UInt64) : Assembly :=
  a.close .dispatch [.const address .i64]

def haltCheck (a : Assembly) (resume : UInt64) : Assembly :=
  let (running, a) := a.pushLocal (.loadContext .running) .i32 []
  let (halted, a) := a.newBlock
  let (next, a) := a.newBlock
  let a := a.append (.branchIf next halted) none [running]
  let a := (a.switchTo halted).close .exit [.const resume .i64]
  a.switchTo next

def step (a : Assembly) : Step → Assembly
  | .mention value => (a.operand value).2
  | .compute inst ty sources =>
    let (dest, a) := a.pushLocal inst ty sources
    { a with temps := a.temps ++ [dest] }
  | .perform inst sources => a.push inst none sources
  | .assign reg ty source =>
    let (dest, a) := a.operand (.reg reg ty)
    a.push .copy (some dest) [source]
  | .haltCheck resume => a.haltCheck resume
  | .dispatch target => a.close .dispatch [target]
  | .branchOn taken target next =>
    let (yes, a) := a.newBlock
    let (no, a) := a.newBlock
    let a := a.close (.branchIf yes no) [taken]
    let a := (a.switchTo yes).dispatchTo target
    (a.switchTo no).dispatchTo next

/-- Add steps up to the one that ends the instruction. -/
def steps (a : Assembly) : List Step → Assembly
  | [] => a
  | s :: rest => if s.isFinal then a.step s else (a.step s).steps rest

def code (a : Assembly) (c : Code) : Assembly :=
  let a := { a with temps := [] }
  match c.guard with
  | none => a.steps c.body
  | some (steps, taken) =>
    let a := a.steps steps
    let (body, a) := a.newBlock
    let (join, a) := a.newBlock
    let a := a.close (.branchIf body join) [taken]
    let a := { a.switchTo body with temps := [] }.steps c.body
    let a := if a.terminated then a else a.close (.branch join) []
    a.switchTo join

end Assembly

end Dynarec.Lift
