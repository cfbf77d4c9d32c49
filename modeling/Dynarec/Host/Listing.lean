import Dynarec.Host.Assembler
import Dynarec.IR.Name

/-!
# Host code in written form

An emission step is written as its mnemonic and its operands: `alu_rr add I64 3 5`.
-/

namespace Dynarec.Host

open IR (Ty)

/-- An operand as it is written. A plain number may stand for a register, a label or a value. -/
inductive Operand where
  | text (word : String)
  | number (value : UInt64)
  | register (reg : Reg)
deriving DecidableEq, Repr

namespace Operand

def reg? : Operand → Option Reg
  | number v => some (.ofNumbers 0 v.toNat)
  | register r => some r
  | text _ => none

def value? : Operand → Option UInt64
  | number v => some v
  | _ => none

def word? : Operand → Option String
  | text word => some word
  | _ => none

/-- A value cut to 32 bits and read as a signed number. -/
def int32? (o : Operand) : Option Int32 := o.value?.map (·.toUInt32.toInt32)

def bool? (o : Operand) : Option Bool := o.value?.map (· != 0)

/-- One of the first `count` labels. -/
def label? (count : Nat) (o : Operand) : Option Label :=
  (o.value?.filter (·.toNat < count)).map fun v => ⟨v.toNat⟩

def ty? (o : Operand) : Option Ty := o.word?.bind Ty.ofName?

def width? (o : Operand) : Option Width := o.word?.bind Width.ofName?

def alu? (o : Operand) : Option AluOp := o.word?.bind AluOp.ofName?

def shift? (o : Operand) : Option ShiftOp := o.word?.bind ShiftOp.ofName?

def cond? (o : Operand) : Option CondCode := o.word?.bind CondCode.ofName?

end Operand

/-- The emission step of a mnemonic with its operands, where `labels` labels have been made so
far. -/
def Asm.ofListing? (labels : Nat) (mnemonic : String) (operands : List Operand) :
    Option (Asm Unit) := do
  match mnemonic, operands with
  | "place", [l] => return place (← l.label? labels)
  | "nop", [] => return nop
  | "mov_rr", [t, d, s] => return mov (← t.ty?) (← d.reg?) (← s.reg?)
  | "mov_ri", [d, v] => return movImm (← d.reg?) (← v.value?)
  | "load", [w, d, b, i] => return load (← w.width?) (← d.reg?) (← b.reg?) (← i.int32?)
  | "store", [w, b, i, s] => return store (← w.width?) (← b.reg?) (← i.int32?) (← s.reg?)
  | "store_imm", [w, b, i, v] =>
    return storeImm (← w.width?) (← b.reg?) (← i.int32?) (← v.int32?)
  | "movzx", [w, d, s] => return movzx (← w.width?) (← d.reg?) (← s.reg?)
  | "movsx", [t, w, d, s] => return movsx (← t.ty?) (← w.width?) (← d.reg?) (← s.reg?)
  | "alu_rr", [o, t, d, s] => return alu (← o.alu?) (← t.ty?) (← d.reg?) (← s.reg?)
  | "alu_ri", [o, t, d, v] => return aluImm (← o.alu?) (← t.ty?) (← d.reg?) (← v.int32?)
  | "shift_ri", [o, t, d, v] =>
    return shift (← o.shift?) (← t.ty?) (← d.reg?) (← v.value?).toUInt32.toNat
  | "shift_cl", [o, t, d] => return shiftCl (← o.shift?) (← t.ty?) (← d.reg?)
  | "neg", [t, d] => return neg (← t.ty?) (← d.reg?)
  | "not", [t, d] => return not (← t.ty?) (← d.reg?)
  | "bswap", [t, d] => return bswap (← t.ty?) (← d.reg?)
  | "bsr", [t, d, s] => return bsr (← t.ty?) (← d.reg?) (← s.reg?)
  | "mul_wide", [g, s] => return mulWide (← g.bool?) (← s.reg?)
  | "div", [g, t, s] => return div (← g.bool?) (← t.ty?) (← s.reg?)
  | "setcc", [c, d] => return setcc (← c.cond?) (← d.reg?)
  | "cmov", [z, t, d, s] => return cmov (← z.bool?) (← t.ty?) (← d.reg?) (← s.reg?)
  | "cmp_mem_imm", [w, b, i, v] =>
    return cmpMemImm (← w.width?) (← b.reg?) (← i.int32?) (← v.int32?)
  | "sub_mem_imm", [w, b, i, v] =>
    return subMemImm (← w.width?) (← b.reg?) (← i.int32?) (← v.int32?)
  | "lock_xadd", [b, s] => return lockedExchangeAdd (← b.reg?) (← s.reg?)
  | "load_indexed", [d, t, i] => return loadIndexed (← d.reg?) (← t.reg?) (← i.reg?)
  | "push", [r] => return push (← r.reg?)
  | "pop", [r] => return pop (← r.reg?)
  | "call_reg", [r] => return callReg (← r.reg?)
  | "jmp_reg", [r] => return jmpReg (← r.reg?)
  | "jmp_mem", [r] => return jmpMem (← r.reg?)
  | "jmp", [l] => return jmp (← l.label? labels)
  | "jcc", [c, l] => return jcc (← c.cond?) (← l.label? labels)
  | "ret", [] => return ret
  | _, _ => none

end Dynarec.Host
