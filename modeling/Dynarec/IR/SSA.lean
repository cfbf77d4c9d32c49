import Dynarec.IR.Dominators
import Dynarec.IR.Edit

/-!
# Static single assignment

Construction turns guest register operands into locals. Every register is loaded from the context
once at entry. Phis stand on the iterated dominance frontier of the blocks that define a register;
an operation at which the host may change the context defines all of them. Where control leaves
the function, and where the host looks at the context, the registers that may differ from it are
stored back.

Deconstruction replaces each phi by a copy from a temporary that every predecessor sets.
-/

namespace Dynarec.IR.SSA

/-- A value that the context must hold when `anchor` is reached. -/
structure PendingStore where
  anchor : OpId
  reg : GuestReg
  value : OperandId

/-- The number of the register that an operand stands for. -/
def registerIndex? (registers : List (GuestReg × OperandId)) (operand : OperandId) : Option Nat :=
  registers.findIdx? (·.2 == operand)

/-! ### Unreachable blocks -/

/-- Make a block consist of an exit only. -/
def replaceByExit (pc : OperandId) (f : Function) (b : BlockId) : Function :=
  let f := (f.blockOperations b).foldl Function.remove f
  (f.pushBack b .exit none [pc]).2

/-- Replace unreachable blocks by exits, so that no edge leaves them. -/
def cutUnreachable (f : Function) : Function :=
  let reachable := f.reversePostorder
  let dead := f.blockIds.filter fun b => !reachable.contains b
  if dead.isEmpty then f
  else
    let (pc, f) := f.constant f.guestAddress .i64
    dead.foldl (replaceByExit pc) f

/-! ### Phi placement -/

/-- Whether an operation gives register `operand` a new value. -/
def defines (op : Operation) (operand : OperandId) : Bool :=
  op.inst.synchronizesContext || op.dest == some operand

/-- The blocks that define the register. -/
def definingBlocks (f : Function) (operand : OperandId) : List BlockId :=
  f.blockIds.filter fun b =>
    (f.blockOperations b).any fun id => defines (f.operation id) operand

structure Placement where
  f : Function
  /-- Blocks that have a phi for the register. -/
  placed : List BlockId
  /-- The new phis, each with the number of its register. -/
  phis : List (OpId × Nat)
  /-- Blocks whose frontier is still to be looked at, the next one first. -/
  work : List BlockId

namespace Placement

/-- Put a phi into a frontier block that has none. -/
def place (defs : List BlockId) (index : Nat) (operand : OperandId) (p : Placement) (b : BlockId) :
    Placement :=
  if p.placed.contains b then p
  else
    let sources := (p.f.predecessors b).map fun _ => operand
    let (phi, f) := p.f.pushFront b .phi (some operand) sources
    { f
      placed := b :: p.placed
      phis := p.phis ++ [(phi, index)]
      work := if defs.contains b then p.work else b :: p.work }

def run (t : DominatorTree) (defs : List BlockId) (index : Nat) (operand : OperandId) :
    (fuel : Nat) → Placement → Placement
  | 0, p => p
  | fuel + 1, p =>
    match p.work with
    | [] => p
    | b :: work =>
      run t defs index operand fuel
        ((t.frontier b).foldl (place defs index operand) { p with work })

end Placement

def placeRegister (t : DominatorTree) (state : Function × List (OpId × Nat)) (index : Nat)
    (operand : OperandId) (defs : List BlockId) : Function × List (OpId × Nat) :=
  let p := Placement.run t defs index operand (2 * state.1.blockCount + 1)
    ⟨state.1, [], state.2, defs.reverse⟩
  (p.f, p.phis)

def placePhis (f : Function) (t : DominatorTree) (registers : List (GuestReg × OperandId)) :
    Function × List (OpId × Nat) :=
  let definitions := registers.mapIdx fun i r => (i, r.2, definingBlocks f r.2)
  definitions.foldl (fun state d => placeRegister t state d.1 d.2.1 d.2.2) (f, [])

/-! ### Renaming -/

/-- What stays fixed while operations are renamed. -/
structure Plan where
  tree : DominatorTree
  registers : List (GuestReg × OperandId)
  phis : List (OpId × Nat)

structure Renaming where
  f : Function
  /-- The value of each register at the point reached. -/
  current : Array OperandId
  pending : List PendingStore

namespace Renaming

def value (r : Renaming) (index : Nat) : OperandId := r.current.getD index default

/-- Let an operation that wrote the register write a new local, which becomes its value. -/
def redefine (plan : Plan) (r : Renaming) (id : OpId) (index : Nat) : Renaming :=
  let ty := match plan.registers[index]? with
    | some (_, operand) => (r.f.operand operand).ty
    | none => .i64
  let (value, f) := r.f.newLocal ty
  { r with f := f.setDest id (some value), current := r.current.setIfInBounds index value }

/-- Replace the registers an operation reads by their values. -/
def renameSources (plan : Plan) (r : Renaming) (id : OpId) : Renaming :=
  let sources := (r.f.operation id).sources.zipIdx
  { r with
    f := sources.foldl (fun f s =>
      match registerIndex? plan.registers s.1 with
      | some index => f.setSource id s.2 (r.value index)
      | none => f) r.f }

/-- Note the values that the context must hold at an operation. -/
def require (plan : Plan) (r : Renaming) (anchor : OpId) : Renaming :=
  let stores := plan.registers.mapIdx fun i reg => ⟨anchor, reg.1, r.value i⟩
  { r with pending := r.pending ++ stores }

/-- Load every register again after an operation. -/
def reload (plan : Plan) (r : Renaming) (anchor : OpId) : Renaming :=
  (plan.registers.zipIdx.foldl (fun (r, anchor) (reg, i) =>
    let (value, f) := r.f.newLocal (r.f.operand reg.2).ty
    let (load, f) := f.pushAfter anchor (.loadContext (.register reg.1)) (some value) []
    ({ r with f, current := r.current.setIfInBounds i value }, load)) (r, anchor)).1

def renameOperation (plan : Plan) (r : Renaming) (id : OpId) : Renaming :=
  let op := r.f.operation id
  if op.inst = .phi then
    match plan.phis.lookup id with
    | some index => r.redefine plan id index
    | none => r
  else
    let r := r.renameSources plan id
    let r := if op.inst.synchronizesContext || op.inst.leavesFunction then r.require plan id else r
    let r := match op.dest.bind (registerIndex? plan.registers) with
      | some index => r.redefine plan id index
      | none => r
    if op.inst.synchronizesContext then r.reload plan id else r

/-- Give the phis at the head of a successor the values that reach them from `b`. -/
def fillPhis (plan : Plan) (b : BlockId) (r : Renaming) (successor : BlockId) : Renaming :=
  match (r.f.predecessors successor).findIdx? (· == b) with
  | none => r
  | some position =>
    let heads := (r.f.blockOperations successor).takeWhile fun id => (r.f.operation id).inst == .phi
    { r with
      f := heads.foldl (fun f id =>
        match plan.phis.lookup id with
        | some index => f.setSource id position (r.value index)
        | none => f) r.f }

/-- Rename a block and what it dominates. -/
def renameBlock (plan : Plan) : (fuel : Nat) → Renaming → BlockId → Renaming
  | 0, r, _ => r
  | fuel + 1, r, b =>
    let r := (r.f.blockOperations b).foldl (renameOperation plan) r
    let r := (r.f.successors b).foldl (fillPhis plan b) r
    (plan.tree.children b).foldl (fun s child =>
      renameBlock plan fuel { s with current := r.current } child) r

end Renaming

/-- Load every register at entry; the loads stand in the order of the registers. -/
def loadInitial (f : Function) (registers : List (GuestReg × OperandId)) :
    Function × List OperandId :=
  registers.foldr (fun reg (f, values) =>
    let (value, f) := f.newLocal (f.operand reg.2).ty
    let f := (f.pushFront Function.entry (.loadContext (.register reg.1)) (some value) []).2
    (f, value :: values)) (f, [])

/-! ### Write-back -/

/-- Whether a definition makes an operand differ from the context: loads and phis do not by
themselves. -/
def dirties (f : Function) (id : OpId) : Bool :=
  match (f.operation id).inst with
  | .loadContext _ | .phi => false
  | _ => true

/-- The phis among the definitions of locals. -/
def localPhis (f : Function) : List OpId :=
  f.operands.toList.flatMap fun o =>
    if o.local?.isSome then o.defs.filter fun id => (f.operation id).inst == .phi else []

/-- Locals with a definition that makes them differ from the context. -/
def initialDirty (f : Function) : Array Bool :=
  f.operands.map fun o => o.local?.isSome && o.defs.any (dirties f)

/-- Mark each phi that has a dirty source. -/
def spread (f : Function) (phis : List OpId) (dirty : Array Bool) : Array Bool :=
  phis.foldl (fun dirty id =>
    let op := f.operation id
    match op.dest with
    | some d =>
      if op.sources.any fun s => dirty.getD s.index false then dirty.setIfInBounds d.index true
      else dirty
    | none => dirty) dirty

def saturate (f : Function) (phis : List OpId) : (rounds : Nat) → Array Bool → Array Bool
  | 0, dirty => dirty
  | rounds + 1, dirty =>
    let next := spread f phis dirty
    if next = dirty then dirty else saturate f phis rounds next

/-- Operands whose value may differ from the context field of their register. -/
def dirtyOperands (f : Function) : Array Bool :=
  let phis := localPhis f
  saturate f phis (phis.length + 1) (initialDirty f)

/-- Store the pending values that may differ from the context. -/
def writeBack (f : Function) (pending : List PendingStore) : Function :=
  let dirty := dirtyOperands f
  pending.foldl (fun f store =>
    if dirty.getD store.value.index false then
      (f.pushBefore store.anchor (.storeContext (.register store.reg)) none [store.value]).2
    else f) f

/-- The first register that some operation still mentions. -/
def leftover? (f : Function) (registers : List (GuestReg × OperandId)) : Option GuestReg :=
  (registers.find? fun r =>
    !(f.operand r.2).uses.isEmpty || !(f.operand r.2).defs.isEmpty).map (·.1)

/-- Rename all registers of a function whose predecessor lists are exact. -/
def rename (f : Function) : Except CompileError Unit × Function :=
  let tree := DominatorTree.compute f
  let registers := f.registers
  let (f, phis) := placePhis f tree registers
  let (f, values) := loadInitial f registers
  let r := Renaming.renameBlock ⟨tree, registers, phis⟩ f.blockCount
    ⟨f, values.toArray, []⟩ Function.entry
  match leftover? r.f registers with
  | some reg => (.error (.invalidIR (reg.text ++ " still referenced after renaming")), r.f)
  | none => (.ok (), writeBack r.f r.pending)

/-- Turn guest registers into locals. A failure leaves the function as far as it got. -/
def construct (f : Function) : Except CompileError Unit × Function :=
  let f := f.computePredecessors
  if !(f.predecessors Function.entry).isEmpty then
    (.error (.blockLayout "entry block has predecessors"), f)
  else
    let f := (cutUnreachable f).computePredecessors
    match f.blockIds.find? fun b => maxSources < (f.predecessors b).length with
    | some b =>
      (.error (.blockLayout
        (b.label ++ " has " ++ Text.nat (f.predecessors b).length ++ " predecessors")), f)
    | none => rename f

/-! ### Deconstruction -/

/-- Set `temp` to `source` at the end of a block. -/
def copyAtEnd (temp : OperandId) (f : Function) (pred : BlockId) (source : OperandId) :
    Except CompileError Unit × Function :=
  match f.terminator? pred with
  | some t => (.ok (), (f.pushBefore t .copy (some temp) [source]).2)
  | none => (.error (.blockLayout (pred.label ++ " has no terminator")), f)

def copyAtEnds (temp : OperandId) (f : Function) :
    List (BlockId × OperandId) → Except CompileError Unit × Function
  | [] => (.ok (), f)
  | (pred, source) :: rest =>
    match copyAtEnd temp f pred source with
    | (.ok (), f) => copyAtEnds temp f rest
    | failed => failed

/-- Resolve the phis at the head of a list of operations; the number of those with a result. -/
def resolvePhis (preds : List BlockId) (f : Function) :
    List OpId → Except CompileError Nat × Function
  | [] => (.ok 0, f)
  | id :: rest =>
    let op := f.operation id
    if op.inst != .phi then (.ok 0, f)
    else match op.dest with
      | none => resolvePhis preds (f.remove id) rest
      | some dest =>
        let (temp, f) := f.newLocal (f.operand dest).ty
        match copyAtEnds temp f (preds.zip op.sources) with
        | (.error e, f) => (.error e, f)
        | (.ok (), f) =>
          let f := (f.setInstruction id .copy).replaceSources id [temp]
          match resolvePhis preds f rest with
          | (.ok n, f) => (.ok (n + 1), f)
          | failed => failed

def resolveBlocks (f : Function) : List BlockId → Except CompileError Nat × Function
  | [] => (.ok 0, f)
  | b :: rest =>
    match resolvePhis (f.predecessors b) f (f.blockOperations b) with
    | (.error e, f) => (.error e, f)
    | (.ok n, f) =>
      match resolveBlocks f rest with
      | (.ok m, f) => (.ok (n + m), f)
      | failed => failed

/-- Replace all phis by copies; the number of phis replaced. -/
def deconstruct (f : Function) : Except CompileError Nat × Function :=
  resolveBlocks f f.blockIds

end Dynarec.IR.SSA
