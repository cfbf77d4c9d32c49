import Dynarec.IR.Edit

/-!
# Structural checks

Every block is a list of its own live operations with one terminator at the end, phis have a source
for each predecessor, and use lists are exact.
-/

namespace Dynarec.IR.Function

variable (f : Function)

def checkOperation (b : BlockId) (id : OpId) : Except CompileError Unit := do
  let op := f.operation id
  if !op.live || op.block != b then
    throw (.invalidIR (id.label ++ " is linked into " ++ b.label ++ " but not owned by it"))
  if op.inst == .phi && op.sources.length != (f.predecessors b).length then
    throw (.invalidIR (id.label ++ " has the wrong phi arity"))

def checkBlock (b : BlockId) : Except CompileError Unit := do
  let ops := f.blockOperations b
  let some last := ops.getLast? | throw (.invalidIR (b.label ++ " is empty"))
  if !(f.operation last).inst.isTerminator then
    throw (.invalidIR (b.label ++ " does not end in a terminator"))
  if let some early := ops.dropLast.find? fun id => (f.operation id).inst.isTerminator then
    throw (.invalidIR (early.label ++ " terminates " ++ b.label ++ " early"))
  ops.forM (f.checkOperation b)

/-- The operations of the blocks that read `operand`, without duplicates. -/
def readers (ops : List OpId) (operand : OperandId) : List OpId :=
  (ops.filter fun id => (f.operation id).sources.contains operand).eraseDups

def checkUses (ops : List OpId) (operand : OperandId) : Except CompileError Unit :=
  let uses := (f.operand operand).uses
  let expected := f.readers ops operand
  if uses.length = expected.length ∧ expected.all uses.contains then .ok ()
  else .error (.invalidIR ("use-list of " ++ operand.label ++ " has " ++ Text.nat uses.length ++
    " entries, expected " ++ Text.nat expected.length))

/-- Check the structure; the first fault is reported, blocks before use lists. -/
def verify : Except CompileError Unit := do
  f.blockIds.forM f.checkBlock
  let ops := f.allOperations
  (List.range f.operands.size).forM fun i => f.checkUses ops ⟨i⟩

end Dynarec.IR.Function
