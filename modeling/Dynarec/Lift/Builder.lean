import Dynarec.Lift.Code

/-!
# Writing code

Combinators for the code of guest instructions. After every memory access and every exception the
code leaves if the host has stopped the guest; results are written only after that check, so that
the guest state is the one before the instruction.
-/

namespace Dynarec.Lift

open Guest (AccessSize Cond Flag Mode)
open IR (Comparison Field Instruction Ty)

structure Built (α : Type) where
  value : α
  steps : List Step
  /-- Number of results after the steps. -/
  temps : Nat

/-- Code that computes a value, given the mode and the number of results before it. -/
def Build (α : Type) : Type := Mode → (temps : Nat) → Built α

instance : Monad Build where
  pure a := fun _ n => ⟨a, [], n⟩
  bind x k := fun mode n =>
    let first := x mode n
    let second := k first.value mode first.temps
    ⟨second.value, first.steps ++ second.steps, second.temps⟩

def gprType (mode : Mode) : Ty :=
  match mode with
  | .a64 => .i64
  | .a32 => .i32

def mode : Build Mode := fun mode n => ⟨mode, [], n⟩

def add (step : Step) : Build Unit := fun _ n => ⟨(), [step], n⟩

def mention (value : Value) : Build Value := do
  add (.mention value)
  return value

/-- Add code only if it is asked for. -/
def onlyIf (wanted : Bool) (x : Build Unit) : Build Unit := if wanted then x else pure ()

def const (value : UInt64) (ty : Ty) : Build Value := mention (.const value ty)

/-- Add an operation with a result. -/
def emit (inst : Instruction) (ty : Ty) (sources : List Value) : Build Value :=
  fun _ n => ⟨.temp n ty, [.compute inst ty sources], n + 1⟩

/-- Add an operation without a result. -/
def effect (inst : Instruction) (sources : List Value) : Build Unit := add (.perform inst sources)

def binary (inst : Instruction) (a b : Value) : Build Value := emit inst a.ty [a, b]

/-- A binary operation whose second source is a constant of the type of the first. -/
def binaryImm (inst : Instruction) (a : Value) (imm : UInt64) : Build Value := do
  let b ← const imm a.ty
  emit inst a.ty [a, b]

def unary (inst : Instruction) (a : Value) : Build Value := emit inst a.ty [a]

/-- Cut a value to 32 bits or extend it with zeros, if its type is another. -/
def resize (value : Value) (ty : Ty) : Build Value :=
  match value.ty, ty with
  | .i32, .i64 => emit .zeroExtend32 .i64 [value]
  | .i64, .i32 => emit .truncate .i32 [value]
  | _, _ => return value

def compare (cmp : Comparison) (a b : Value) : Build Value := emit (.compare cmp) .i32 [a, b]

def compareImm (cmp : Comparison) (a : Value) (imm : UInt64) : Build Value := do
  let b ← const imm a.ty
  compare cmp a b

def select (cond ifTrue ifFalse : Value) : Build Value :=
  emit .select ifTrue.ty [cond, ifTrue, ifFalse]

/-! ### Guest state -/

def gpr (n : Nat) : Build Value := do
  mention (.reg (.gpr n) (gprType (← mode)))

def writeGpr (n : Nat) (value : Value) : Build Unit := do
  let reg ← gpr n
  let value ← resize value reg.ty
  add (.assign (.gpr n) reg.ty value)

def flag (flag : Flag) : Build Value := mention (.reg (.flag flag) .i32)

def setFlag (f : Flag) (value : Value) : Build Unit := do
  let reg ← flag f
  add (.assign (.flag f) reg.ty value)

def loadContext (field : Field) (ty : Ty) : Build Value := emit (.loadContext field) ty []

def storeContext (field : Field) (value : Value) : Build Unit :=
  effect (.storeContext field) [value]

/-! ### Control flow -/

/-- Go on at a computed guest address. -/
def dispatch (target : Value) : Build Unit := do
  let target ← resize target .i64
  add (.dispatch target)

def dispatchTo (address : UInt64) : Build Unit := do
  let target ← const address .i64
  add (.dispatch target)

def load (size : AccessSize) (address : Value) (ty : Ty) (pc : UInt64) : Build Value := do
  let value ← emit (.load size) ty [address]
  add (.haltCheck pc)
  return value

def store (size : AccessSize) (address value : Value) (pc : UInt64) : Build Unit := do
  effect (.store size) [address, value]
  add (.haltCheck pc)

/-- Call the host for an exception, then go on at `next`. -/
def raise (inst : Instruction) (pc payload next : UInt64) : Build Unit := do
  let pcValue ← const pc .i64
  let payload ← const payload .i64
  effect inst [pcValue, payload]
  add (.haltCheck next)
  dispatchTo next

/-! ### Conditions and flags -/

/-- The value of a condition, 0 or 1. -/
def condition (cond : Cond) : Build Value := do
  let n ← flag .n
  let z ← flag .z
  let c ← flag .c
  let v ← flag .v
  let not (x : Value) := binaryImm .xor x 1
  match cond with
  | .eq => return z
  | .ne => not z
  | .cs => return c
  | .cc => not c
  | .mi => return n
  | .pl => not n
  | .vs => return v
  | .vc => not v
  | .hi => do
      let notZ ← not z
      binary .and c notZ
  | .ls => do
      let notZ ← not z
      not (← binary .and c notZ)
  | .ge => compare .eq n v
  | .lt => compare .ne n v
  | .gt => do
      let ge ← compare .eq n v
      let notZ ← not z
      binary .and ge notZ
  | .le => do
      let ge ← compare .eq n v
      let notZ ← not z
      not (← binary .and ge notZ)
  | .al | .nv => const 1 .i32

/-- The most significant bit, 0 or 1. -/
def signBit (value : Value) : Build Value := do
  let bits := value.ty.bits
  let shifted ← binaryImm .shiftRightLogical value (bits - 1).toUInt64
  resize shifted .i32

inductive CarryIn where
  | zero
  | one
  /-- A 32-bit value that is 0 or 1. -/
  | value (carry : Value)

/-- A sum with the flags it sets. -/
structure FlaggedSum where
  result : Value
  n : Value
  z : Value
  c : Value
  v : Value

def addCarry (sum : Value) (carry : CarryIn) : Build Value :=
  match carry with
  | .zero => return sum
  | .one => binaryImm .add sum 1
  | .value c => do
      let c ← resize c sum.ty
      binary .add sum c

/-- Whether the sum of `a`, another value and the carry went past the type. -/
def carryOut (result a : Value) (carry : CarryIn) : Build Value :=
  match carry with
  | .zero => compare .ult result a
  | .one => compare .ule result a
  | .value carry => do
      let with_ ← compare .ule result a
      let without ← compare .ult result a
      select carry with_ without

/-- `a + b + carry` with its flags. -/
def addWithCarry (a b : Value) (carry : CarryIn) : Build FlaggedSum := do
  let sum ← binary .add a b
  let result ← addCarry sum carry
  let n ← signBit result
  let z ← compareImm .eq result 0
  let c ← carryOut result a carry
  let aXor ← binary .xor a result
  let bXor ← binary .xor b result
  let overflow ← binary .and aXor bXor
  let v ← signBit overflow
  return ⟨result, n, z, c, v⟩

/-- `a - b` with a borrow unless `carry`, as `a + ~b + carry`. -/
def subWithCarry (a b : Value) (carry : CarryIn) : Build FlaggedSum := do
  let notB ← unary .not b
  addWithCarry a notB carry

def addOrSub (sub : Bool) (a b : Value) (carry : CarryIn) : Build FlaggedSum :=
  if sub then subWithCarry a b carry else addWithCarry a b carry

def setNZCV (sum : FlaggedSum) : Build Unit := do
  setFlag .n sum.n
  setFlag .z sum.z
  setFlag .c sum.c
  setFlag .v sum.v

def setNZ (result : Value) : Build Unit := do
  let n ← signBit result
  let z ← compareImm .eq result 0
  setFlag .n n
  setFlag .z z

/-! ### Instructions -/

/-- The code of an instruction that is always carried out. -/
def Build.code (mode : Mode) (body : Build Unit) : Code := ⟨none, (body mode 0).steps⟩

/-- The code of an instruction that is carried out if the condition holds. -/
def conditional (mode : Mode) (cond : Cond) (body : Build Unit) : Code :=
  if cond.isAlways then body.code mode
  else
    let taken := condition cond mode 0
    ⟨some (taken.steps, taken.value), (body mode 0).steps⟩

end Dynarec.Lift
