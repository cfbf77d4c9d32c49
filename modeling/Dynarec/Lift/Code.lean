import Dynarec.Guest.Block
import Dynarec.IR.Basic

/-!
# Code of guest instructions

The code of an instruction is a list of steps. Each step may use the results of the steps before it,
which are numbered from zero in each instruction and again after a condition; guest registers are
values of their own. Control leaves the list only where the host has stopped the guest, and at its
end.
-/

namespace Dynarec.Lift

open IR (GuestReg Instruction Ty)

/-- What a step may read. -/
inductive Value where
  | const (value : UInt64) (ty : Ty)
  | reg (reg : GuestReg) (ty : Ty)
  /-- A result of the same instruction, by its number. -/
  | temp (i : Nat) (ty : Ty)

def Value.ty : Value → Ty
  | const _ ty | reg _ ty | temp _ ty => ty

inductive Step where
  /-- Name a constant or a register. Operands are numbered in the order in which they are named. -/
  | mention (value : Value)
  /-- An operation with a result. -/
  | compute (inst : Instruction) (ty : Ty) (sources : List Value)
  /-- An operation without a result that does not end the instruction. -/
  | perform (inst : Instruction) (sources : List Value)
  | assign (reg : GuestReg) (ty : Ty) (source : Value)
  /-- Leave, to go on at `resume` later, if the guest was stopped. -/
  | haltCheck (resume : UInt64)
  /-- Go on at a computed guest address. -/
  | dispatch (target : Value)
  /-- Go on at one of two guest addresses. -/
  | branchOn (taken : Value) (target next : UInt64)

/-- Whether nothing follows the step. -/
def Step.isFinal : Step → Bool
  | dispatch _ | branchOn _ _ _ => true
  | _ => false

/-- The code of one instruction. -/
structure Code where
  /-- Steps that compute a condition, and its value; the body is skipped where it is zero. -/
  guard : Option (List Step × Value)
  body : List Step

end Dynarec.Lift
