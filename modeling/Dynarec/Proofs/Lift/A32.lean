import Dynarec.Lift.A32
import Dynarec.Proofs.Lift.Builder

/-!
# Code of A32 instructions is proper

The types of the operands, and one case for each instruction.
-/

set_option synthInstance.maxSize 1000

namespace Dynarec.Lift.A32

open Guest (AccessSize Cond Flag Opcode Shift)
open Guest.A32
open IR (Ty)

variable {pc : UInt64} {part : Part} {ty ty' : Ty} {v n m carry : Value} {v? : Option Value}
  {known : List (Value × Ty)}

/-! ### Registers and operands -/

theorem reg_lt (reg : Reg) : (reg : Nat) < 32 := reg.isLt.trans_le (by decide)

instance emits_gpr_reg (reg : Reg) : Emits .a32 pc part known (gpr reg) fun w => [(w, .i32)] :=
  emits_gpr (reg_lt reg)

instance emits_writeGpr_reg (reg : Reg) [hv : Finds (some v) ty known] :
    Emits .a32 pc .update known (writeGpr reg v) fun _ => [] :=
  emits_writeGpr (reg_lt reg)

instance emits_read (reg : Reg) : Emits .a32 pc part known (read reg pc) fun w => [(w, .i32)] := by
  dsimp only [read]
  infer_instance

instance emits_write (reg : Reg) [hv : Finds (some v) ty known] :
    Emits .a32 pc .update known (write reg v) fun _ => [] := by
  dsimp only [write, dispatchMasked]
  infer_instance

instance emits_shifted (operand : ShiftedReg) :
    Emits .a32 pc part known (shifted operand pc) fun r => (r.1, .i32) :: optional .i32 r.2 := by
  refine emits_bind inferInstance fun value => ?_
  dsimp only [bitOf, shiftDown, shiftRight]
  split <;> infer_instance

instance emits_shifterOperand (operand : ShifterOperand) :
    Emits .a32 pc part known (shifterOperand operand pc)
      fun r => (r.1, .i32) :: optional .i32 r.2 := by
  dsimp only [shifterOperand, bitOf, shiftDown]
  split <;> infer_instance

instance emits_offset (off : Offset) :
    Emits .a32 pc part known (offset off pc) fun w => [(w, .i32)] := by
  cases off <;> dsimp only [offset] <;> infer_instance

/-! ### Data processing -/

instance emits_logical (opcode : DataOp) [hn : Finds (some n) .i32 known]
    [hm : Finds (some m) .i32 known] :
    Emits .a32 pc part known (logical opcode n m) fun w => [(w, .i32)] := by
  cases opcode <;> dsimp only [logical] <;> infer_instance

instance emits_arithmetic (opcode : DataOp) [hn : Finds (some n) .i32 known]
    [hm : Finds (some m) .i32 known] [hcarry : Finds (some carry) .i32 known] :
    Emits .a32 pc part known (arithmetic opcode n m carry) (FlaggedSum.entries .i32) := by
  cases opcode <;> dsimp only [arithmetic] <;> infer_instance

instance emits_setLogicalFlags [hv : Finds (some v) ty known] [hv? : Finds v? .i32 known] :
    Emits .a32 pc .update known (setLogicalFlags v v?) fun _ => [] := by
  cases v? <;> dsimp only [setLogicalFlags] <;> infer_instance

/-! ### Block transfers -/

def loadedEntries (loaded : List (Reg × Value)) : List (Value × Ty) :=
  loaded.map fun e => (e.2, .i32)

theorem emits_transfer (load_ : Bool) (regs : List Reg) {offset : Int}
    (hv : Finds (some v) ty known) :
    Emits .a32 pc .access known (transfer load_ v pc offset regs) loadedEntries := by
  induction regs generalizing known offset with
  | nil => exact emits_pure fun _ _ _ h => by cases h
  | cons reg rest ih =>
    refine emits_bind inferInstance fun a => ?_
    split
    · refine emits_bind inferInstance fun value => emits_bind (ih inferInstance) fun more => ?_
      refine emits_pure fun _ hknown => List.forall_mem_cons.mpr
        ⟨hknown _ ?_, fun e he => hknown e ?_⟩
      · simp
      · exact List.mem_append_left _ he
    · exact emits_bind inferInstance fun value => emits_bind inferInstance fun _ => ih inferInstance

instance proper_loadStoreMultiple (load_ : Bool) (rn : Reg) (registers : Nat) (mode : BlockMode)
    (writeback : Bool) :
    (loadStoreMultiple load_ rn registers mode writeback pc).Proper .a32 pc known := by
  refine .bind inferInstance fun base => ?_
  refine .bind (emits_transfer load_ _ inferInstance) fun loaded => ?_
  dsimp only [moveBase]
  refine .of_update (emits_bind inferInstance fun _ => emits_forM fun e he => ?_)
  have hfinds : Finds (some e.2) .i32 (loadedEntries loaded) :=
    finds_of_mem (List.mem_map_of_mem he)
  infer_instance

/-! ### Results -/

instance emits_loadExtra (kind : ExtraKind) [hv : Finds (some v) ty known] :
    Emits .a32 pc .access known (loadExtra kind v pc) fun w => [(w, .i32)] := by
  cases kind <;> dsimp only [loadExtra] <;> infer_instance

instance passed_coprocessorField (reg : CoprocReg) : Passed (isSpecial (coprocessorField reg)) := by
  cases reg <;> dsimp only [coprocessorField] <;> infer_instance

/-! ### Instructions -/

/-- Every instruction has proper code. -/
theorem proper_lift (op : Opcode) (instr : Op) : (lift op instr).Proper .a32 op.address known := by
  cases instr with
  | writeCoprocessor rt reg => cases reg <;> dsimp only [lift] <;> infer_instance
  | _ =>
    dsimp only [lift, address, dataProcessing, dataResult, accumulateLong, multiplyLong, wideValue,
      accumulate, writeLink, dispatchMasked]
    infer_instance

theorem proper_code (op : Opcode) (instr : Instr) : (code .a32 op instr).Proper .a32 op.address :=
  proper_conditional instr.cond rfl (proper_lift op instr.op)

end Dynarec.Lift.A32
