import Dynarec.Error
import Dynarec.IR.Function

/-!
# Editing functions

Operations are inserted, removed and changed here, and nowhere else: every edit keeps the use lists
and definition lists of the operands in step with the operations.
-/

namespace Dynarec.IR.Function

variable (f : Function)

def modifyOperand (id : OperandId) (g : Operand → Operand) : Function :=
  { f with operands := f.operands.modify id.index g }

def modifyOperation (id : OpId) (g : Operation → Operation) : Function :=
  { f with operations := f.operations.modify id.index g }

def modifyBlock (id : BlockId) (g : BasicBlock → BasicBlock) : Function :=
  { f with blocks := f.blocks.modify id.index g }

def addUse (operand : OperandId) (id : OpId) : Function :=
  f.modifyOperand operand fun o => { o with uses := o.uses.insert id }

def eraseUse (operand : OperandId) (id : OpId) : Function :=
  f.modifyOperand operand fun o => { o with uses := o.uses.filter (· != id) }

def addDef (operand : OperandId) (id : OpId) : Function :=
  f.modifyOperand operand fun o => { o with defs := o.defs ++ [id] }

def eraseDef (operand : OperandId) (id : OpId) : Function :=
  f.modifyOperand operand fun o => { o with defs := o.defs.filter (· != id) }

def addUses (id : OpId) (sources : List OperandId) : Function :=
  sources.foldl (fun f source => f.addUse source id) f

def eraseUses (id : OpId) (sources : List OperandId) : Function :=
  sources.foldl (fun f source => f.eraseUse source id) f

/-! ### Linking -/

def setPrev (id : OpId) (prev : Option OpId) : Function :=
  f.modifyOperation id fun op => { op with prev }

def setNext (id : OpId) (next : Option OpId) : Function :=
  f.modifyOperation id fun op => { op with next }

/-- Make `next` follow `prev`, or start the block if there is no `prev`. -/
def linkForward (b : BlockId) (prev next : Option OpId) : Function :=
  match prev with
  | some prev => f.setNext prev next
  | none => f.modifyBlock b fun blk => { blk with first := next }

/-- Make `prev` precede `next`, or end the block if there is no `next`. -/
def linkBackward (b : BlockId) (prev next : Option OpId) : Function :=
  match next with
  | some next => f.setPrev next prev
  | none => f.modifyBlock b fun blk => { blk with last := prev }

/-- A new operation that is not linked into its block yet. Sources past the fourth are cut off. -/
def create (b : BlockId) (inst : Instruction) (dest : Option OperandId)
    (sources : List OperandId) : OpId × Function :=
  let sources := sources.take maxSources
  let id : OpId := ⟨f.operations.size⟩
  let op : Operation :=
    { inst, dest, slots := Operation.pack sources, count := sources.length, block := b
      prev := none, next := none, live := true }
  let f := { f with operations := f.operations.push op }
  let f := f.addUses id sources
  match dest with
  | some d => (id, f.addDef d id)
  | none => (id, f)

def pushBack (b : BlockId) (inst : Instruction) (dest : Option OperandId)
    (sources : List OperandId) : OpId × Function :=
  let (id, f) := f.create b inst dest sources
  let last := (f.block b).last
  let f := f.setPrev id last
  let f := f.linkForward b last (some id)
  (id, f.modifyBlock b fun blk => { blk with last := some id })

/-- Add an operation before `anchor`, in its block. -/
def pushBefore (anchor : OpId) (inst : Instruction) (dest : Option OperandId)
    (sources : List OperandId) : OpId × Function :=
  let b := (f.operation anchor).block
  let (id, f) := f.create b inst dest sources
  let prev := (f.operation anchor).prev
  let f := f.setPrev id prev
  let f := f.setNext id (some anchor)
  let f := f.setPrev anchor (some id)
  (id, f.linkForward b prev (some id))

/-- Add an operation after `anchor`, in its block. -/
def pushAfter (anchor : OpId) (inst : Instruction) (dest : Option OperandId)
    (sources : List OperandId) : OpId × Function :=
  match (f.operation anchor).next with
  | some next => f.pushBefore next inst dest sources
  | none => f.pushBack (f.operation anchor).block inst dest sources

def pushFront (b : BlockId) (inst : Instruction) (dest : Option OperandId)
    (sources : List OperandId) : OpId × Function :=
  match (f.block b).first with
  | some first => f.pushBefore first inst dest sources
  | none => f.pushBack b inst dest sources

/-! ### Checked insertion -/

def checkSources (inst : Instruction) (sources : List OperandId) : Except CompileError Unit :=
  if sources.length ≤ maxSources then .ok ()
  else .error (.invalidIR (inst.name ++ " takes " ++ Text.nat sources.length ++ " sources"))

def append (b : BlockId) (inst : Instruction) (dest : Option OperandId)
    (sources : List OperandId) : Except CompileError (OpId × Function) := do
  checkSources inst sources
  return f.pushBack b inst dest sources

def prepend (b : BlockId) (inst : Instruction) (dest : Option OperandId)
    (sources : List OperandId) : Except CompileError (OpId × Function) := do
  checkSources inst sources
  return f.pushFront b inst dest sources

def insertBefore (anchor : OpId) (inst : Instruction) (dest : Option OperandId)
    (sources : List OperandId) : Except CompileError (OpId × Function) := do
  checkSources inst sources
  return f.pushBefore anchor inst dest sources

def insertAfter (anchor : OpId) (inst : Instruction) (dest : Option OperandId)
    (sources : List OperandId) : Except CompileError (OpId × Function) := do
  checkSources inst sources
  return f.pushAfter anchor inst dest sources

/-! ### Changes -/

/-- Unlink an operation and take it off every list. Removing it again changes nothing. -/
def remove (id : OpId) : Function :=
  let op := f.operation id
  if !op.live then f
  else
    let f := f.linkForward op.block op.prev op.next
    let f := f.linkBackward op.block op.prev op.next
    let f := f.eraseUses id op.sources
    let f := match op.dest with
      | some d => f.eraseDef d id
      | none => f
    f.modifyOperation id fun op => { op with live := false, prev := none, next := none }

/-- Change one source slot. A slot past the sources in use is changed too, but reading it does not
count as a use, so the use lists are exact only for slots in use. -/
def setSource (id : OpId) (index : Nat) (new : OperandId) : Function :=
  let old := (f.operation id).slots.toList.getD index ⟨0⟩
  if old = new then f
  else
    let f := f.modifyOperation id fun op =>
      { op with slots := op.slots.setIfInBounds index new }
    let f := if (f.operation id).sources.contains old then f else f.eraseUse old id
    f.addUse new id

/-- Change all sources at once. Sources past the fourth are cut off. -/
def replaceSources (id : OpId) (sources : List OperandId) : Function :=
  let sources := sources.take maxSources
  let f := f.eraseUses id (f.operation id).sources
  let f := f.modifyOperation id fun op =>
    { op with slots := Operation.pack sources, count := sources.length }
  f.addUses id sources

def setSources (id : OpId) (sources : List OperandId) : Except CompileError Function :=
  if sources.length ≤ maxSources then .ok (f.replaceSources id sources)
  else .error (.invalidIR (Text.nat sources.length ++ " sources do not fit an operation"))

def setInstruction (id : OpId) (inst : Instruction) : Function :=
  f.modifyOperation id fun op => { op with inst }

def setDest (id : OpId) (dest : Option OperandId) : Function :=
  let f := match (f.operation id).dest with
    | some old => f.eraseDef old id
    | none => f
  let f := f.modifyOperation id fun op => { op with dest }
  match dest with
  | some new => f.addDef new id
  | none => f

/-- The slots in use that hold `operand`. -/
def slotsOf (id : OpId) (operand : OperandId) : List Nat :=
  (List.range (f.operation id).count).filter fun i => (f.operation id).source? i == some operand

/-- Make every operation that reads `old` read `new`. -/
def replaceAllUses (old new : OperandId) : Function :=
  if old = new then f
  else (f.operand old).uses.foldl (fun f user =>
    (f.slotsOf user old).foldl (fun f index => f.setSource user index new) f) f

end Dynarec.IR.Function
