import Dynarec.IR.Dominators
import Dynarec.IR.Optimize

/-!
# Edits on identifiers that may not exist

Passes only use identifiers that a function has handed out. For identifiers from elsewhere, each
edit here first asks whether they exist: `none` means that one does not.
-/

namespace Dynarec.IR.Function

variable (f : Function)

/-- The operands that an operation would mention all exist. -/
def hasOperands (dest : Option OperandId) (sources : List OperandId) : Bool :=
  sources.all f.hasOperand && dest.all f.hasOperand

/-- An insertion, unless there are too many sources or an operand is missing. The number of sources
is looked at first. -/
def insert? (place : Bool) (inst : Instruction) (dest : Option OperandId)
    (sources : List OperandId) (edited : Except CompileError (OpId × Function)) :
    Option (Except CompileError (OpId × Function)) :=
  match checkSources inst sources with
  | .error e => some (.error e)
  | .ok () => if place && f.hasOperands dest sources then some edited else none

def append? (b : BlockId) (inst : Instruction) (dest : Option OperandId)
    (sources : List OperandId) : Option (Except CompileError (OpId × Function)) :=
  f.insert? (f.hasBlock b) inst dest sources (f.append b inst dest sources)

/-- The block is looked at before the number of sources, for its first operation. -/
def prepend? (b : BlockId) (inst : Instruction) (dest : Option OperandId)
    (sources : List OperandId) : Option (Except CompileError (OpId × Function)) :=
  if f.hasBlock b then f.insert? true inst dest sources (f.prepend b inst dest sources) else none

def insertBefore? (anchor : OpId) (inst : Instruction) (dest : Option OperandId)
    (sources : List OperandId) : Option (Except CompileError (OpId × Function)) :=
  if f.hasOperation anchor then
    f.insert? true inst dest sources (f.insertBefore anchor inst dest sources)
  else none

def insertAfter? (anchor : OpId) (inst : Instruction) (dest : Option OperandId)
    (sources : List OperandId) : Option (Except CompileError (OpId × Function)) :=
  if f.hasOperation anchor then
    f.insert? true inst dest sources (f.insertAfter anchor inst dest sources)
  else none

def remove? (id : OpId) : Option Function :=
  if f.hasOperation id then some (f.remove id) else none

/-- A source that does not change is not looked at. -/
def setSource? (id : OpId) (index : Nat) (new : OperandId) : Option Function :=
  if !f.hasOperation id || maxSources ≤ index then none
  else if (f.operation id).slots.toList[index]? == some new || f.hasOperand new then
    some (f.setSource id index new)
  else none

def setSources? (id : OpId) (sources : List OperandId) : Option (Except CompileError Function) :=
  if maxSources < sources.length || f.hasOperation id && sources.all f.hasOperand then
    some (f.setSources id sources)
  else none

def setInstruction? (id : OpId) (inst : Instruction) : Option Function :=
  if f.hasOperation id then some (f.setInstruction id inst) else none

def setDest? (id : OpId) (dest : Option OperandId) : Option Function :=
  if f.hasOperation id && dest.all f.hasOperand then some (f.setDest id dest) else none

/-- The new operand is looked at only if something reads the old one. -/
def replaceAllUses? (old new : OperandId) : Option Function :=
  if old = new then some f
  else if !f.hasOperand old then none
  else if f.hasOperand new || (f.operand old).uses.all fun user => (f.slotsOf user old).isEmpty then
    some (f.replaceAllUses old new)
  else none

def computePredecessors? : Option Function :=
  if f.branchesExist then some f.computePredecessors else none

def operand? (id : OperandId) : Option Operand := f.operands[id.index]?

def operation? (id : OpId) : Option Operation := f.operations[id.index]?

/-- The dominator tree, if every reachable branch goes to a block of the function. -/
def dominators? : Option DominatorTree :=
  if f.reversePostorder.all fun b => (f.successors b).all f.hasBlock then some (.compute f)
  else none

/-- Copy propagation, if every copy has something to copy. -/
def propagateCopies? : Option (Nat × Function) :=
  if f.hasBareCopy then none else some f.propagateCopies

def optimize? (tier : Tier) : Option (OptimizerStats × Function) :=
  match tier with
  | .fast => some (f.optimize tier)
  | .optimized => if f.hasBareCopy then none else some (f.optimize tier)

end Dynarec.IR.Function
