import Dynarec.Context
import Dynarec.IR.Value
import Dynarec.IR.Function

/-!
# Meaning of functions

What generated code does, said on the function it was generated from: operations change a frame of
locals and a world that holds the guest context. What the host does when it is called is a
parameter.
-/

namespace Dynarec.IR

open Guest (AccessSize)

/-- The host as operations see it, over a world `ω` that holds the guest context. -/
structure Native (ω : Type) where
  context : ω → Context
  mapContext : (Context → Context) → ω → ω
  load : AccessSize → (address : UInt64) → ω → UInt64 × ω
  store : AccessSize → (address value : UInt64) → ω → ω
  readCounter : ω → UInt64 × ω
  readFrequency : ω → UInt64 × ω
  supervisorCall : (pc : UInt64) → (payload : UInt32) → ω → ω
  breakpoint : (pc : UInt64) → (payload : UInt32) → ω → ω
  undefined : (pc : UInt64) → (payload : UInt32) → ω → ω
  invalidateLine : (address : UInt64) → ω → ω
  countCall : (counter guest threshold : UInt64) → ω → ω

/-- How control leaves a function. -/
inductive Leave where
  | dispatch (pc : UInt64)
  | exit (pc : UInt64)
deriving DecidableEq, Repr

/-- Values of the locals. -/
abbrev Frame := Array UInt64

namespace Eval

variable {ω : Type}

def operandValue (f : Function) (frame : Frame) (id : OperandId) : UInt64 :=
  match (f.operand id).kind with
  | .local_ i => frame.getD i 0
  | .constant value => value
  | .register _ | .undefined => 0

def sourceValue (f : Function) (frame : Frame) (op : Operation) (i : Nat) : UInt64 :=
  match op.source? i with
  | some id => operandValue f frame id
  | none => 0

def sourceType (f : Function) (op : Operation) : Ty :=
  match op.source? 0 with
  | some id => (f.operand id).ty
  | none => .i64

def destType (f : Function) (op : Operation) : Ty :=
  match op.dest with
  | some id => (f.operand id).ty
  | none => .i64

def write (f : Function) (frame : Frame) (op : Operation) (value : UInt64) : Frame :=
  match op.dest.bind fun d => (f.operand d).local? with
  | some i => frame.setIfInBounds i value
  | none => frame

/-- The value of an operation that only reads its sources. A copy moves all bits; a comparison and
the condition of a selection look at the bits of their type only. -/
def pureValue (f : Function) (frame : Frame) (op : Operation) : UInt64 :=
  let ty := destType f op
  let sourceTy := sourceType f op
  let a := sourceValue f frame op 0
  let b := sourceValue f frame op 1
  let c := sourceValue f frame op 2
  let args := match op.inst with
    | .compare _ => [a &&& sourceTy.mask, b &&& sourceTy.mask]
    | .select => [a &&& sourceTy.mask, b, c]
    | _ => [a, b, c]
  match op.inst with
  | .copy => a
  | inst => (inst.evaluate? ty sourceTy args).getD 0

/-- One operation that does not end a block. -/
def step (f : Function) (native : Native ω) (op : Operation) (frame : Frame) (world : ω) :
    Frame × ω :=
  let a := sourceValue f frame op 0
  let b := sourceValue f frame op 1
  let result (value : UInt64) (world : ω) : Frame × ω :=
    (write f frame op (value &&& (destType f op).mask), world)
  match op.inst with
  | .loadContext field => result ((native.context world).get field) world
  | .storeContext field => (frame, native.mapContext (·.put field a) world)
  | .load size =>
    let (value, world) := native.load size a world
    result value world
  | .store size => (frame, native.store size a b world)
  | .readCounter =>
    let (value, world) := native.readCounter world
    result value world
  | .readFrequency =>
    let (value, world) := native.readFrequency world
    result value world
  | .supervisorCall => (frame, native.supervisorCall a b.toUInt32 world)
  | .breakpoint => (frame, native.breakpoint a b.toUInt32 world)
  | .undefined => (frame, native.undefined a b.toUInt32 world)
  | .invalidateCacheLine => (frame, native.invalidateLine a world)
  | .countCall => (frame, native.countCall a b (sourceValue f frame op 2) world)
  | _ => (write f frame op (pureValue f frame op), world)

/-- Where control goes after some operations of a block. -/
inductive Next where
  /-- On to the block that follows. -/
  | fall
  | goto (block : BlockId)
  | leave (how : Leave)
deriving DecidableEq, Repr

/-- Where a terminator leads. A branch to the block that follows takes no instruction. -/
def terminate (f : Function) (frame : Frame) (op : Operation) (following : BlockId) : Next :=
  let a := sourceValue f frame op 0
  let goto (b : BlockId) : Next := if b = following then .fall else .goto b
  match op.inst with
  | .branch target => goto target
  | .branchIf then_ otherwise =>
    match (op.source? 0).map fun id => (f.operand id).kind with
    | some (.local_ _) =>
      if a &&& (sourceType f op).mask != 0 then .goto then_ else goto otherwise
    | _ => goto (if a != 0 then then_ else otherwise)
  | .dispatch => .leave (.dispatch a)
  | _ => .leave (.exit a)

/-- Run operations of a block that is followed by `following`. -/
def runOperations (f : Function) (native : Native ω) (following : BlockId) :
    List OpId → Frame → ω → Next × Frame × ω
  | [], frame, world => (.fall, frame, world)
  | id :: rest, frame, world =>
    let op := f.operation id
    if op.inst.isTerminator then
      match terminate f frame op following with
      | .fall => runOperations f native following rest frame world
      | next => (next, frame, world)
    else
      let (frame, world) := step f native op frame world
      runOperations f native following rest frame world

/-- Run from a block on, through at most `fuel` blocks. -/
def runFrom (f : Function) (native : Native ω) :
    (fuel : Nat) → BlockId → Frame → ω → Option (Leave × ω)
  | 0, _, _, _ => none
  | fuel + 1, b, frame, world =>
    let following : BlockId := ⟨b.index + 1⟩
    if !f.hasBlock b then none
    else match runOperations f native following (f.blockOperations b) frame world with
    | (.fall, frame, world) => runFrom f native fuel following frame world
    | (.goto target, frame, world) => runFrom f native fuel target frame world
    | (.leave how, _, world) => some (how, world)

end Eval

/-- Run a function from its entry. Locals that were never set are zero. -/
def Function.run {ω : Type} (f : Function) (native : Native ω) (fuel : Nat) (world : ω) :
    Option (Leave × ω) :=
  Eval.runFrom f native fuel Function.entry (Array.replicate f.localCount 0) world

end Dynarec.IR
