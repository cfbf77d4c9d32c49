import Dynarec.IR.Basic
import Dynarec.Text.Hex

/-!
# Written names of instructions

An instruction is written as its name, followed by its parameters, each after a dot: `cmp.Eq`,
`load.Word`, `stctx.r3`, `brif.1.2`.
-/

namespace Dynarec.IR

open Guest (AccessSize Flag)

def Ty.ofName? (text : String) : Option Ty :=
  [Ty.i32, .i64].find? (·.name == text)

/-- A flag by its letter, or a register slot: `r` and its number. -/
def GuestReg.ofName? (text : String) : Option GuestReg :=
  match Flag.all.find? (·.name == text) with
  | some f => some (.flag f)
  | none =>
    match text.toList with
    | 'r' :: digits => (Text.digits? 10 digits).filter (· < 256) |>.map .gpr
    | _ => none

def Field.ofName? (text : String) : Option Field :=
  match text with
  | "pc" => some .pc
  | "running" => some .running
  | "tpidr_el0" => some .tpidrEl0
  | "tpidrro_el0" => some .tpidrroEl0
  | "fpcr" => some .fpcr
  | "fpsr" => some .fpsr
  | text => (GuestReg.ofName? text).map .register

namespace Comparison

def all : List Comparison := [.eq, .ne, .ult, .ule, .ugt, .uge, .slt, .sle, .sgt, .sge]

def ofName? (text : String) : Option Comparison := all.find? (·.name == text)

end Comparison

def accessSizeOfName? (text : String) : Option AccessSize :=
  [AccessSize.byte, .half, .word, .double].find? (·.name == text)

def BlockId.ofText? (text : String) : Option BlockId :=
  (Text.digits? 10 text.toList).map (⟨·⟩)

namespace Instruction

/-- The instructions without parameters. -/
def plain : List Instruction :=
  [.copy, .add, .subtract, .multiply, .multiplyHighSigned, .multiplyHighUnsigned, .divideSigned,
    .divideUnsigned, .and, .or, .xor, .not, .negate, .shiftLeft, .shiftRightLogical,
    .shiftRightArithmetic, .rotateRight, .countLeadingZeros, .byteSwap, .select, .zeroExtend8,
    .zeroExtend16, .zeroExtend32, .signExtend8, .signExtend16, .signExtend32, .truncate,
    .readCounter, .readFrequency, .supervisorCall, .breakpoint, .undefined, .invalidateCacheLine,
    .countCall, .phi, .dispatch, .exit]

def ofName? (text : String) : Option Instruction :=
  match text.splitOn "." with
  | ["cmp", cmp] => (Comparison.ofName? cmp).map .compare
  | ["load", size] => (accessSizeOfName? size).map .load
  | ["store", size] => (accessSizeOfName? size).map .store
  | ["ldctx", field] => (Field.ofName? field).map .loadContext
  | ["stctx", field] => (Field.ofName? field).map .storeContext
  | ["br", target] => (BlockId.ofText? target).map .branch
  | ["brif", then_, otherwise] => do
      return .branchIf (← BlockId.ofText? then_) (← BlockId.ofText? otherwise)
  | [name] => plain.find? (·.name == name)
  | _ => none

end Instruction

end Dynarec.IR
