import Dynarec.IR.Edit
import Dynarec.IR.Value

/-!
# Optimization

Copy propagation, constant folding and dead code elimination on functions in static single
assignment form. All changes go through the edits of a function, so an empty use list means that a
result is not used.
-/

namespace Dynarec.IR

/-- How much work a compilation puts into a block. -/
inductive Tier where
  | fast
  | optimized
deriving DecidableEq, Repr

def Tier.name : Tier → String
  | fast => "fast"
  | optimized => "optimized"

structure OptimizerStats where
  rounds : Nat := 0
  copies : Nat := 0
  folded : Nat := 0
  removed : Nat := 0
deriving DecidableEq, Repr

def OptimizerStats.changes (s : OptimizerStats) : Nat := s.copies + s.folded + s.removed

namespace Function

/-! ### Copies -/

/-- The only source of a phi besides its own result, if there is just one. -/
def onlySource? (dest : OperandId) (sources : List OperandId) : Option OperandId :=
  match sources.filter (· != dest) with
  | [] => none
  | s :: rest => if rest.all (· == s) then some s else none

/-- Whether the readers of the result of a copy may read its source instead. -/
def canForward (f : Function) (dest source : OperandId) : Bool :=
  (f.operand dest).defs.length == 1 && (f.operand dest).local?.isSome
    && (f.operand source).ty == (f.operand dest).ty

/-- Turn a trivial phi into a copy, or forward the source of a copy. -/
def propagateCopy (state : Nat × Function) (id : OpId) : Nat × Function :=
  let (n, f) := state
  let op := f.operation id
  if !op.live then (n, f)
  else match op.inst, op.dest with
    | .phi, some dest =>
      match onlySource? dest op.sources with
      | some source => (n + 1, (f.setInstruction id .copy).replaceSources id [source])
      | none => (n, f)
    | .copy, some dest =>
      match op.source? 0 with
      | some source =>
        if f.canForward dest source then (n + 1, (f.replaceAllUses dest source).remove id)
        else (n, f)
      | none => (n, f)
    | _, _ => (n, f)

/-- Collapse trivial phis and forward copies; the number of changes. -/
def propagateCopies (f : Function) : Nat × Function :=
  f.allOperations.foldl propagateCopy (0, f)

/-- Whether some copy with a result has nothing to copy. -/
def hasBareCopy (f : Function) : Bool :=
  f.allOperations.any fun id =>
    let op := f.operation id
    op.live && op.inst == .copy && op.dest.isSome && op.count == 0

/-! ### Constants -/

/-- The value of an operation over constants that is the only definition of its result. -/
def constantResult? (f : Function) (op : Operation) : Option (OperandId × UInt64 × Ty) := do
  guard (op.live && op.inst != .copy)
  let dest ← op.dest
  guard ((f.operand dest).defs.length == 1)
  let values ← op.sources.mapM fun s => (f.operand s).constant?
  let sourceTy := match op.source? 0 with
    | some s => (f.operand s).ty
    | none => .i64
  let ty := (f.operand dest).ty
  let value ← op.inst.evaluate? ty sourceTy values
  return (dest, value, ty)

def foldConstant (state : Nat × Function) (id : OpId) : Nat × Function :=
  let (n, f) := state
  match f.constantResult? (f.operation id) with
  | some (dest, value, ty) =>
    let (constant, f) := f.constant value ty
    (n + 1, (f.replaceAllUses dest constant).remove id)
  | none => (n, f)

/-- Replace pure operations over constants by their value; the number of them. -/
def foldConstants (f : Function) : Nat × Function :=
  f.allOperations.foldl foldConstant (0, f)

/-! ### Dead code -/

/-- Whether an operation can be dropped. -/
def isDead (f : Function) (op : Operation) : Bool :=
  op.live && !op.inst.hasSideEffects && op.dest.any fun d => (f.operand d).uses.isEmpty

/-- Drop dead operations; the definitions of what they read are looked at again. -/
def sweep : (fuel : Nat) → (work : List OpId) → Nat × Function → Nat × Function
  | 0, _, state => state
  | _, [], state => state
  | fuel + 1, id :: work, (n, f) =>
    let op := f.operation id
    if f.isDead op then
      let f := f.remove id
      let again := op.sources.flatMap fun s => (f.operand s).defs
      sweep fuel (again.reverse ++ work) (n + 1, f)
    else sweep fuel work (n, f)

/-- Steps after which a sweep is over: each removal adds the definitions of four operands at
most. -/
def sweepBound (f : Function) : Nat :=
  let n := f.operations.size
  (n + 1) * (4 * n + 2)

/-- Remove operations without effects whose results are unused; the number of them. -/
def eliminateDeadCode (f : Function) : Nat × Function :=
  sweep f.sweepBound f.allOperations.reverse (0, f)

/-! ### Rounds -/

/-- Most rounds of the full tier. -/
def maxRounds : Nat := 64

/-- Run all passes until a round changes nothing. -/
def optimizeRounds : (rounds : Nat) → OptimizerStats × Function → OptimizerStats × Function
  | 0, state => state
  | rounds + 1, (s, f) =>
    let (copies, f) := f.propagateCopies
    let (folded, f) := f.foldConstants
    let (removed, f) := f.eliminateDeadCode
    let next : OptimizerStats :=
      { rounds := s.rounds + 1
        copies := s.copies + copies
        folded := s.folded + folded
        removed := s.removed + removed }
    if next.changes = s.changes then (next, f) else optimizeRounds rounds (next, f)

/-- Optimize for a tier. The fast tier only drops dead code. -/
def optimize (f : Function) : Tier → OptimizerStats × Function
  | .fast =>
    let (removed, f) := f.eliminateDeadCode
    ({ rounds := 1, removed }, f)
  | .optimized => optimizeRounds maxRounds ({}, f)

end Function

end Dynarec.IR
