import Dynarec.Guest.Basic
import Dynarec.Text.Record

/-!
# Vocabulary of the intermediate representation

Identifiers, value types, context fields and the closed set of instructions, with the properties
of an instruction that every pass relies on.
-/

namespace Dynarec.IR

open Guest (Flag AccessSize)

structure OperandId where
  index : Nat
deriving DecidableEq, Repr, Inhabited

structure OpId where
  index : Nat
deriving DecidableEq, Repr, Inhabited

structure BlockId where
  index : Nat
deriving DecidableEq, Repr, Inhabited

/-- Greatest number of sources of one operation. -/
def maxSources : Nat := 4

inductive Ty where
  | i32
  | i64
deriving DecidableEq, Repr, Inhabited

namespace Ty

def bits : Ty → Nat
  | i32 => 32
  | i64 => 64

/-- The bits a value of the type may have set. -/
def mask : Ty → UInt64
  | i32 => 0xffffffff
  | i64 => 0xffffffffffffffff

/-- The low bits of `v` read as a two's complement number of the type. -/
def signed (ty : Ty) (v : UInt64) : Int :=
  match ty with
  | i32 => v.toUInt32.toInt32.toInt
  | i64 => v.toInt64.toInt

def name : Ty → String
  | i32 => "I32"
  | i64 => "I64"

end Ty

/-- Guest state that lives in operands: register slots and condition flags. In A64 slot 31 is the
stack pointer. -/
inductive GuestReg where
  | gpr (n : Nat)
  | flag (flag : Flag)
deriving DecidableEq, Repr

inductive Field where
  | register (reg : GuestReg)
  | pc
  | running
  | tpidrEl0
  | tpidrroEl0
  | fpcr
  | fpsr
deriving DecidableEq, Repr

inductive Comparison where
  | eq | ne | ult | ule | ugt | uge | slt | sle | sgt | sge
deriving DecidableEq, Repr

namespace Comparison

/-- Signed comparisons read their operands as numbers of type `ty`. -/
def holds (cmp : Comparison) (ty : Ty) (a b : UInt64) : Bool :=
  match cmp with
  | eq => a == b
  | ne => a != b
  | ult => a < b
  | ule => a ≤ b
  | ugt => b < a
  | uge => b ≤ a
  | slt => ty.signed a < ty.signed b
  | sle => ty.signed a ≤ ty.signed b
  | sgt => ty.signed b < ty.signed a
  | sge => ty.signed b ≤ ty.signed a

def name : Comparison → String
  | eq => "Eq"
  | ne => "Ne"
  | ult => "Ult"
  | ule => "Ule"
  | ugt => "Ugt"
  | uge => "Uge"
  | slt => "Slt"
  | sle => "Sle"
  | sgt => "Sgt"
  | sge => "Sge"

end Comparison

/-- Instructions. Division by zero yields zero. `select` picks its second source when the first
is not zero, else its third. `store` takes an address and a value; the exception calls take the
guest address and a payload; `countCall` takes a counter, the guest address and a threshold.
`dispatch` continues at a guest address, `exit` returns to the caller with one. -/
inductive Instruction where
  | copy
  | add
  | subtract
  | multiply
  | multiplyHighSigned
  | multiplyHighUnsigned
  | divideSigned
  | divideUnsigned
  | and
  | or
  | xor
  | not
  | negate
  | shiftLeft
  | shiftRightLogical
  | shiftRightArithmetic
  | rotateRight
  | countLeadingZeros
  | byteSwap
  | compare (cmp : Comparison)
  | select
  | zeroExtend8
  | zeroExtend16
  | zeroExtend32
  | signExtend8
  | signExtend16
  | signExtend32
  | truncate
  | load (size : AccessSize)
  | store (size : AccessSize)
  | loadContext (field : Field)
  | storeContext (field : Field)
  | readCounter
  | readFrequency
  | supervisorCall
  | breakpoint
  | undefined
  | invalidateCacheLine
  | countCall
  | phi
  | branch (target : BlockId)
  | branchIf (then_ otherwise : BlockId)
  | dispatch
  | exit
deriving DecidableEq, Repr

namespace Instruction

def isTerminator : Instruction → Bool
  | branch _ | branchIf _ _ | dispatch | exit => true
  | _ => false

/-- Operations that are kept even when their result is unused. -/
def hasSideEffects : Instruction → Bool
  | load _ | store _ | storeContext _ | supervisorCall | breakpoint | undefined
  | invalidateCacheLine | countCall => true
  | inst => inst.isTerminator

/-- Operations at which the host may read or change the guest registers in the context. -/
def synchronizesContext : Instruction → Bool
  | supervisorCall | breakpoint | undefined => true
  | _ => false

/-- Operations carried out by a call into the host. -/
def isNativeCall : Instruction → Bool
  | load _ | store _ | readCounter | readFrequency | supervisorCall | breakpoint | undefined
  | invalidateCacheLine => true
  | _ => false

/-- Operations after which control leaves the function. -/
def leavesFunction : Instruction → Bool
  | dispatch | exit => true
  | _ => false

def name : Instruction → String
  | copy => "copy"
  | add => "add"
  | subtract => "sub"
  | multiply => "mul"
  | multiplyHighSigned => "smulh"
  | multiplyHighUnsigned => "umulh"
  | divideSigned => "sdiv"
  | divideUnsigned => "udiv"
  | and => "and"
  | or => "or"
  | xor => "xor"
  | not => "not"
  | negate => "neg"
  | shiftLeft => "shl"
  | shiftRightLogical => "lshr"
  | shiftRightArithmetic => "ashr"
  | rotateRight => "ror"
  | countLeadingZeros => "clz"
  | byteSwap => "bswap"
  | compare _ => "cmp"
  | select => "select"
  | zeroExtend8 => "zext8"
  | zeroExtend16 => "zext16"
  | zeroExtend32 => "zext32"
  | signExtend8 => "sext8"
  | signExtend16 => "sext16"
  | signExtend32 => "sext32"
  | truncate => "trunc"
  | load _ => "load"
  | store _ => "store"
  | loadContext _ => "ldctx"
  | storeContext _ => "stctx"
  | readCounter => "counter"
  | readFrequency => "frequency"
  | supervisorCall => "svc"
  | breakpoint => "brk"
  | undefined => "undefined"
  | invalidateCacheLine => "icinval"
  | countCall => "countcall"
  | phi => "phi"
  | branch _ => "br"
  | branchIf _ _ => "brif"
  | dispatch => "dispatch"
  | exit => "exit"

end Instruction

def OperandId.label (id : OperandId) : String := "%" ++ Text.nat id.index

def OpId.label (id : OpId) : String := "op" ++ Text.nat id.index

def BlockId.label (id : BlockId) : String := "bb" ++ Text.nat id.index

open Text in
def BlockId.text (id : BlockId) : String := tuple "BlockId" [nat id.index]

open Text in
def GuestReg.text : GuestReg → String
  | gpr n => tuple "Gpr" [nat n]
  | flag f => tuple "Flag" [f.name]

open Text in
def Field.text : Field → String
  | register reg => tuple "Register" [reg.text]
  | pc => "Pc"
  | running => "Running"
  | tpidrEl0 => "TpidrEl0"
  | tpidrroEl0 => "TpidrroEl0"
  | fpcr => "Fpcr"
  | fpsr => "Fpsr"

open Text in
def Instruction.text : Instruction → String
  | copy => "Copy"
  | add => "Add"
  | subtract => "Subtract"
  | multiply => "Multiply"
  | multiplyHighSigned => "MultiplyHighSigned"
  | multiplyHighUnsigned => "MultiplyHighUnsigned"
  | divideSigned => "DivideSigned"
  | divideUnsigned => "DivideUnsigned"
  | and => "And"
  | or => "Or"
  | xor => "Xor"
  | not => "Not"
  | negate => "Negate"
  | shiftLeft => "ShiftLeft"
  | shiftRightLogical => "ShiftRightLogical"
  | shiftRightArithmetic => "ShiftRightArithmetic"
  | rotateRight => "RotateRight"
  | countLeadingZeros => "CountLeadingZeros"
  | byteSwap => "ByteSwap"
  | compare cmp => tuple "Compare" [cmp.name]
  | select => "Select"
  | zeroExtend8 => "ZeroExtend8"
  | zeroExtend16 => "ZeroExtend16"
  | zeroExtend32 => "ZeroExtend32"
  | signExtend8 => "SignExtend8"
  | signExtend16 => "SignExtend16"
  | signExtend32 => "SignExtend32"
  | truncate => "Truncate"
  | load size => tuple "Load" [size.name]
  | store size => tuple "Store" [size.name]
  | loadContext field => tuple "LoadContext" [field.text]
  | storeContext field => tuple "StoreContext" [field.text]
  | readCounter => "ReadCounter"
  | readFrequency => "ReadFrequency"
  | supervisorCall => "SupervisorCall"
  | breakpoint => "Breakpoint"
  | undefined => "Undefined"
  | invalidateCacheLine => "InvalidateCacheLine"
  | countCall => "CountCall"
  | phi => "Phi"
  | branch target => tuple "Branch" [target.text]
  | branchIf then_ otherwise =>
    record "BranchIf" [("then", then_.text), ("otherwise", otherwise.text)]
  | dispatch => "Dispatch"
  | exit => "Exit"

end Dynarec.IR
