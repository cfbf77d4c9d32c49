import Dynarec.Guest.Block

/-!
# Ranges of decoded operands

The code of an instruction shifts by the amounts in its operands and subtracts them from the width
of its registers. Decoding keeps these amounts in range.
-/

namespace Dynarec.Guest

/-- What a part of a decoder finds, if anything, has the property. -/
def Finds {α : Type} (P : α → Prop) (found : Option α) : Prop := ∀ a, found = some a → P a

section

variable {α β : Type} {P : α → Prop}

@[simp, grind =] theorem finds_none : Finds P none ↔ True := by simp [Finds]

@[simp, grind =] theorem finds_some {a : α} : Finds P (some a) ↔ P a := by simp [Finds]

@[grind =] theorem finds_bind {found : Option β} {f : β → Option α} :
    Finds P (found >>= f) ↔ ∀ b, found = some b → Finds P (f b) := by
  cases found <;> simp

@[grind =] theorem finds_map {found : Option β} {f : β → α} :
    Finds P (found.map f) ↔ ∀ b, found = some b → P (f b) := by
  cases found <;> simp

theorem Finds.getD {found : Option α} {a : α} (h : Finds P found) (ha : P a) :
    P (found.getD a) := by
  cases found with
  | none => exact ha
  | some b => exact h b rfl

end

namespace A64

def widthOf (wide : Bool) : Nat := if wide then 64 else 32

@[grind] def Operand2.InRange (width : Nat) : Operand2 → Prop
  | imm _ => True
  | shifted _ _ amount => amount < width
  | extended _ _ amount => amount ≤ 4

/-- Shift amounts, positions and lengths lie inside the registers that they apply to. -/
@[grind] def Instr.InRange : Instr → Prop
  | addSub wide _ _ _ _ operand | logical wide _ _ _ _ _ operand => operand.InRange (widthOf wide)
  | moveWide wide _ _ imm16 shift => imm16 < 65536 ∧ shift < widthOf wide
  | bitfield wide _ _ _ immr imms => immr < widthOf wide ∧ imms < widthOf wide
  | extract wide _ _ _ lsb => lsb < widthOf wide
  | testBranch bit _ _ _ => bit < 64
  | _ => True

variable (address : UInt64) (w : UInt32) (rd rn rm : Reg)

theorem finds_decodeImmediate : Finds Instr.InRange (decodeImmediate address w) := by
  have hfirst : bits w 21 16 < 64 := bits_lt w 21 16
  have hlast : bits w 15 10 < 64 := bits_lt w 15 10
  have hhalf : bits w 22 21 < 4 := bits_lt w 22 21
  have himm : bits w 20 5 < 65536 := bits_lt w 20 5
  unfold decodeImmediate
  dsimp only
  split
  case h_5 =>
    split
    · exact finds_none.mpr trivial
    next h =>
      have hshift : bits w 22 21 * 16 < widthOf (bit w 31) := by grind [widthOf]
      split <;> simp [Instr.InRange, himm, hshift]
  all_goals grind [widthOf]

theorem finds_decodeSystem : Finds Instr.InRange (decodeSystem w) := by grind [decodeSystem]

theorem finds_decodeBranch : Finds Instr.InRange (decodeBranch address w) := by
  have htop : bits w 31 31 < 2 := bits_lt w 31 31
  have hlow : bits w 23 19 < 32 := bits_lt w 23 19
  grind [decodeBranch, finds_decodeSystem]

theorem finds_decodeLoadStore : Finds Instr.InRange (decodeLoadStore address w) := by
  grind [decodeLoadStore, decodeLoadStorePair, decodeLoadStoreRegister]

theorem finds_decodeShiftedRegister : Finds Instr.InRange (decodeShiftedRegister w) := by
  have hamount : bits w 15 10 < 64 := bits_lt w 15 10
  grind [decodeShiftedRegister, widthOf]

theorem finds_decodeSources : Finds Instr.InRange (decodeSources w rd rn rm) := by
  grind [decodeSources]

theorem finds_decodeMultiply : Finds Instr.InRange (decodeMultiply w rd rn rm) := by
  grind [decodeMultiply]

theorem finds_decodeRegister : Finds Instr.InRange (decodeRegister w) := by
  grind [decodeRegister, finds_decodeShiftedRegister, finds_decodeSources, finds_decodeMultiply]

theorem inRange_decode : (decode address w).InRange := by
  refine Finds.getD ?_ trivial
  grind [finds_decodeImmediate, finds_decodeBranch, finds_decodeLoadStore, finds_decodeRegister]

end A64

namespace A32

/-- The amounts that shifts by a constant have: a right shift by 32 leaves nothing, and a rotation
is never by zero. -/
@[grind] def ImmShift.InRange : ImmShift → Prop
  | imm .lsl n => n < 32
  | imm .ror n => 0 < n ∧ n < 32
  | imm _ n => 0 < n ∧ n ≤ 32
  | rrx => True

@[grind] def Op.InRange : Op → Prop
  | dataProcessing _ _ _ _ (.reg s) | loadStore _ _ _ _ (.reg s) _
  | loadStoreExtra _ _ _ _ (.reg s) _ => s.shift.InRange
  | moveWide _ _ imm16 => imm16 < 65536
  | _ => True

variable (address : UInt64) (w : UInt32)

theorem inRange_decodeShift : (decodeShift w).InRange := by
  have hamount : bits w 11 7 < 32 := bits_lt w 11 7
  grind [decodeShift]

theorem finds_decodeMultiply : Finds Op.InRange (decodeMultiply w) := by grind [decodeMultiply]

theorem finds_decodeLoadStoreExtra : Finds Op.InRange (decodeLoadStoreExtra w) := by
  grind [decodeLoadStoreExtra]

theorem finds_decodeConditional : Finds Op.InRange (decodeConditional address w) := by
  have hshift := inRange_decodeShift w
  have htop : bits w 19 16 < 16 := bits_lt w 19 16
  have hlow : bits w 11 0 < 4096 := bits_lt w 11 0
  grind [decodeConditional, finds_decodeMultiply, finds_decodeLoadStoreExtra, decodeMisc,
    decodeDataProcessing, decodeLoadStore, decodeLoadStoreMultiple, decodeCoprocessor]

theorem inRange_decode : (decode address w).op.InRange := by
  unfold decode
  split
  · grind [decodeUnconditional]
  · exact (finds_decodeConditional address w).getD trivial

end A32

def Instr.InRange : Instr → Prop
  | a64 i => i.InRange
  | a32 i => i.op.InRange

theorem Opcode.inRange_decode (mode : Mode) (address : UInt64) (w : UInt32) :
    (Opcode.decode mode address w).instr.InRange := by
  cases mode with
  | a64 => exact A64.inRange_decode address w
  | a32 => exact A32.inRange_decode address w

end Dynarec.Guest
