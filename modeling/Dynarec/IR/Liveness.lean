import Dynarec.IR.Function
import Dynarec.IR.LocalSet

/-!
# Liveness of locals

Which locals are read later on, at the start and at the end of each block, by backward iteration.
-/

namespace Dynarec.IR

/-- What a block does to locals: those it reads before writing, and those it writes. -/
structure BlockEffect where
  uses : LocalSet
  defs : LocalSet
deriving Inhabited

namespace BlockEffect

def read (f : Function) (e : BlockEffect) (source : OperandId) : BlockEffect :=
  match (f.operand source).local? with
  | some i => if e.defs.contains i then e else { e with uses := e.uses.insert i }
  | none => e

def write (f : Function) (e : BlockEffect) (dest : Option OperandId) : BlockEffect :=
  match dest.bind fun d => (f.operand d).local? with
  | some i => { e with defs := e.defs.insert i }
  | none => e

def step (f : Function) (e : BlockEffect) (id : OpId) : BlockEffect :=
  let op := f.operation id
  (op.sources.foldl (read f) e).write f op.dest

def ofBlock (f : Function) (b : BlockId) : BlockEffect :=
  let none := LocalSet.ofCapacity f.localCount
  (f.blockOperations b).foldl (step f) ⟨none, none⟩

end BlockEffect

structure Liveness where
  liveIn : Array LocalSet
  liveOut : Array LocalSet
deriving DecidableEq

namespace Liveness

def before (l : Liveness) (b : BlockId) : LocalSet := l.liveIn.getD b.index default

def after (l : Liveness) (b : BlockId) : LocalSet := l.liveOut.getD b.index default

/-- Live after `b`: what is live before some successor. -/
def out (f : Function) (l : Liveness) (b : BlockId) : LocalSet :=
  (f.successors b).foldl (fun s succ => s.union (l.before succ)) (.ofCapacity f.localCount)

def update (f : Function) (effects : Array BlockEffect) (l : Liveness) (b : BlockId) : Liveness :=
  let effect := effects.getD b.index default
  let out := l.out f b
  { liveIn := l.liveIn.setIfInBounds b.index ((out.diff effect.defs).union effect.uses)
    liveOut := l.liveOut.setIfInBounds b.index out }

/-- Update every block, the last one first. -/
def round (f : Function) (effects : Array BlockEffect) (l : Liveness) : Liveness :=
  f.blockIds.reverse.foldl (update f effects) l

def stabilize (f : Function) (effects : Array BlockEffect) : (rounds : Nat) → Liveness → Liveness
  | 0, l => l
  | rounds + 1, l =>
    let next := round f effects l
    if next = l then l else stabilize f effects rounds next

/-- Rounds after which nothing changes: each round before that adds a local somewhere. -/
def maxRounds (f : Function) : Nat := 2 * f.blockCount * (f.localCount + 64) + 2

def compute (f : Function) : Liveness :=
  let effects := (f.blockIds.map (BlockEffect.ofBlock f)).toArray
  stabilize f effects (maxRounds f)
    { liveIn := effects.map (·.uses)
      liveOut := effects.map fun _ => .ofCapacity f.localCount }

end Liveness

end Dynarec.IR
