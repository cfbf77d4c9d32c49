import Dynarec.Lift.A64
import Dynarec.Proofs.Lift.Builder

/-!
# Code of A64 instructions is proper

The types of the operands, and one case for each instruction.
-/

set_option synthInstance.maxSize 1000

namespace Dynarec.Lift.A64

open Guest (AccessSize Cond Flag Opcode Shift)
open Guest.A64
open IR (Ty)

variable {pc : UInt64} {part : Part} {ty ty' : Ty} {v src : Value} {known : List (Value × Ty)}

/-! ### Registers and operands -/

theorem slot_lt {reg : Reg} {n : Nat} (h : reg.slot? = some n) : n < 32 := by
  cases reg with
  | x i =>
    obtain rfl : i = n := Option.some.inj h
    exact i.isLt.trans_le (by decide)
  | sp =>
    obtain rfl : 31 = n := Option.some.inj h
    decide
  | zr => cases h

instance emits_read (reg : Reg) (ty : Ty) :
    Emits .a64 pc part known (read reg ty) fun w => [(w, ty)] := by
  unfold read
  split
  next n hn => exact emits_bind (emits_gpr (slot_lt hn)) fun _ => inferInstance
  · infer_instance

instance emits_write (reg : Reg) [hv : Finds (some v) ty known] :
    Emits .a64 pc .update known (write reg v) fun _ => [] := by
  unfold write
  split
  next n hn => exact emits_writeGpr (slot_lt hn)
  · infer_instance

instance plain_shiftInstruction (shift : Shift) : Plain (shiftInstruction shift) :=
  ⟨by cases shift <;> rfl⟩

instance emits_extend (rm : Reg) (ext : Extend) (ty : Ty) :
    Emits .a64 pc part known (extend rm ext ty) fun w => [(w, ty)] := by
  cases ext <;> cases ty <;> dsimp only [extend] <;> infer_instance

instance emits_operand2 (operand : Operand2) (ty : Ty) :
    Emits .a64 pc part known (operand2 operand ty) fun w => [(w, ty)] := by
  cases operand <;> dsimp only [operand2, shiftImm] <;> infer_instance

/-! ### Addresses -/

instance emits_pure_none : Emits .a64 pc part known (pure none) (optional .i64) :=
  emits_pure fun _ _ _ h => by cases h

instance emits_pure_some [hv : Finds (some v) .i64 known] :
    Emits .a64 pc part known (pure (some v)) (optional .i64) :=
  emits_pure fun _ hknown => knows_one (hv.has hknown)

instance emits_offset? (addr : Address) : Emits .a64 pc part known (offset? addr)
    (optional .i64) := by
  cases h : addr.offset <;> simp only [offset?, h, shiftImm] <;> infer_instance

instance emits_displace (mode : IndexMode) [hv : Finds (some v) .i64 known]
    [hsrc : Finds (some src) ty known] :
    Emits .a64 pc part known (displace mode v src) fun r => (r.1, .i64) :: optional .i64 r.2 := by
  cases mode <;> dsimp only [displace] <;> infer_instance

instance emits_address (addr : Address) :
    Emits .a64 pc part known (address addr) fun r => (r.1, .i64) :: optional .i64 r.2 := by
  refine emits_bind inferInstance fun base => emits_bind inferInstance fun offset => ?_
  cases offset <;> infer_instance

instance emits_writeBack (addr : Address) {base? : Option Value} [h : Finds base? ty known] :
    Emits .a64 pc .update known (writeBack addr base?) fun _ => [] := by
  cases base? <;> dsimp only [writeBack] <;> infer_instance

instance emits_loadValue (size : AccessSize) (signed : Bool) (ty : Ty)
    [hv : Finds (some v) ty' known] :
    Emits .a64 pc .access known (loadValue size signed ty v pc) fun w => [(w, w.ty)] := by
  cases signed <;> cases size <;> dsimp only [loadValue] <;>
    exact emits_known inferInstance

/-! ### Results -/

instance emits_branchOn (target next : UInt64) [hv : Finds (some v) ty known] :
    Emits .a64 pc .update known (branchOn v target next) fun _ => [] :=
  emits_add fun _ hknown => .branchOn (hv.has hknown).known target next .nil

instance emits_fieldDown (op : BitfieldOp) (rd : Reg) (immr len : Nat)
    [hsrc : Finds (some src) ty known] :
    Emits .a64 pc part known (fieldDown op rd src immr len) fun w => [(w, w.ty)] := by
  cases op <;> dsimp only [fieldDown] <;> exact emits_known inferInstance

instance emits_fieldUp (op : BitfieldOp) (rd : Reg) (position len : Nat)
    [hsrc : Finds (some src) ty known] :
    Emits .a64 pc part known (fieldUp op rd src position len) fun w => [(w, w.ty)] := by
  cases op <;> dsimp only [fieldUp] <;> exact emits_known inferInstance

instance emits_reverse (wide : Bool) (kind : ReverseKind) (rn : Reg) :
    Emits .a64 pc part known (reverse wide kind rn) fun w => [(w, width wide)] := by
  cases kind <;> dsimp only [reverse] <;> infer_instance

/-! ### Flags and system registers -/

instance emits_readNZCV : Emits .a64 pc part known readNZCV fun w => [(w, .i64)] := by
  simp only [readNZCV, flagBits, List.foldlM_cons, List.foldlM_nil]
  infer_instance

instance carries_plainCarry (sub : Bool) : Carries (plainCarry sub) known := by
  cases sub
  · exact inferInstanceAs (Carries .zero known)
  · exact inferInstanceAs (Carries .one known)

instance emits_compareOperand (operand : CompareOperand) (ty : Ty) :
    Emits .a64 pc part known (compareOperand operand ty) fun w => [(w, ty)] := by
  cases operand <;> dsimp only [compareOperand] <;> infer_instance

instance emits_readSystem (reg : SysReg) :
    Emits .a64 pc part known (readSystem reg) fun w => [(w, .i64)] := by
  cases reg <;> dsimp only [readSystem] <;> infer_instance

instance emits_writeSystem (op : Opcode) (reg : SysReg) [hv : Finds (some v) ty known] :
    Emits .a64 pc .update known (writeSystem op reg v) fun _ => [] := by
  cases reg <;> dsimp only [writeSystem, writeNZCV, raiseUndefined] <;> infer_instance

instance plain_logicalInstruction (op : LogicOp) : Plain (logicalInstruction op) :=
  ⟨by cases op <;> rfl⟩

instance emits_wideValue (op : MoveWideOp) (rd : Reg) (ty : Ty) (imm16 shift : Nat) :
    Emits .a64 pc part known (wideValue op rd ty imm16 shift) fun w => [(w, ty)] := by
  cases op <;> dsimp only [wideValue] <;> infer_instance

instance emits_alternative (op : CondSelectOp) [hv : Finds (some v) ty known] :
    Emits .a64 pc part known (alternative op v) fun w => [(w, ty)] := by
  cases op <;> dsimp only [alternative] <;> infer_instance

instance emits_writeLink (next : UInt64) :
    Emits .a64 pc .update known (writeLink next) fun _ => [] :=
  emits_bind inferInstance fun _ => emits_writeGpr (by decide)

/-! ### Instructions -/

/-- Every instruction has proper code. -/
theorem proper_lift (op : Opcode) (instr : Instr) :
    (lift op instr).Proper .a64 op.address known := by
  cases instr <;> dsimp only [lift, shiftImm, readWordExtended, bitfield, moveField, raiseUndefined,
    condCompare, invertIf, setLogicalFlags] <;> infer_instance

end Dynarec.Lift.A64
