import Dynarec.Context
import Dynarec.Proofs.Guest.OperandRanges
import Mathlib.Algebra.Group.Int.Defs
import Mathlib.Algebra.Group.Nat.Defs

/-!
# The architecture

What integer instructions do by the definition of the architecture: on words of the width of the
instruction, with carries and overflows read off unbounded sums.
-/

namespace Dynarec.Guest

open BitVec

structure Nzcv where
  n : Bool
  z : Bool
  c : Bool
  v : Bool
deriving DecidableEq

namespace Nzcv

def get (f : Nzcv) : Flag → Bool
  | .n => f.n
  | .z => f.z
  | .c => f.c
  | .v => f.v

def set (f : Nzcv) (g : Flag) (b : Bool) : Nzcv :=
  match g with
  | .n => { f with n := b }
  | .z => { f with z := b }
  | .c => { f with c := b }
  | .v => { f with v := b }

def ofBits (bits : Nat) : Nzcv :=
  ⟨bits.testBit 3, bits.testBit 2, bits.testBit 1, bits.testBit 0⟩

def holds (f : Nzcv) (cond : Cond) : Bool := cond.holds f.n f.z f.c f.v

end Nzcv

variable {w : Nat}

/-- A sum with a carry. C tells whether the sum of the unsigned numbers is too large, V whether that
of the signed ones is. -/
def addWithCarry (x y : BitVec w) (carry : Bool) : BitVec w × Nzcv :=
  let sum := x.toNat + y.toNat + carry.toNat
  let result := BitVec.ofNat w sum
  (result, ⟨result.msb, result == 0, result.toNat != sum,
    result.toInt != x.toInt + y.toInt + carry.toNat⟩)

/-! ### Sums -/

variable (x y : BitVec w) (carry : Bool)

/-- A sum exceeds the width by at most one bit. -/
theorem toNat_addWithCarry : (addWithCarry x y carry).1.toNat = x.toNat + y.toNat + carry.toNat ∨
    (addWithCarry x y carry).1.toNat + 2 ^ w = x.toNat + y.toNat + carry.toNat := by
  have hcarry : carry.toNat ≤ 1 := Bool.toNat_le carry
  simp only [addWithCarry, toNat_ofNat]
  by_cases hlt : x.toNat + y.toNat + carry.toNat < 2 ^ w
  · exact .inl (Nat.mod_eq_of_lt hlt)
  · rw [Nat.mod_eq_sub_mod (Nat.le_of_not_lt hlt), Nat.mod_eq_of_lt (by omega)]
    exact .inr (by omega)

/-- The flags of a sum, by the numbers that the width has room for. -/
theorem flags_addWithCarry (hw : 0 < w) :
    let sum := x.toNat + y.toNat + carry.toNat
    let signed := x.toInt + y.toInt + carry.toNat
    (addWithCarry x y carry).2 = ⟨decide (2 ^ (w - 1) ≤ sum % 2 ^ w), sum % 2 ^ w == 0,
      decide (2 ^ w ≤ sum), decide (signed < -2 ^ (w - 1) ∨ 2 ^ (w - 1) ≤ signed)⟩ := by
  have hr : (addWithCarry x y carry).1.toNat < 2 ^ w := (addWithCarry x y carry).1.isLt
  have hsum := toNat_addWithCarry x y carry
  have hmod : (x.toNat + y.toNat + carry.toNat) % 2 ^ w = (addWithCarry x y carry).1.toNat :=
    (toNat_ofNat ..).symm
  have hsigned : (addWithCarry x y carry).1 = BitVec.ofInt w (x.toInt + y.toInt + carry.toNat) := by
    simp [addWithCarry, BitVec.ofNat_add, BitVec.ofInt_add]
  dsimp only
  rw [hmod]
  refine (Nzcv.mk.injEq ..).mpr ⟨msb_eq_decide _, ?_, ?_, ?_⟩
  · rw [Bool.eq_iff_iff, beq_iff_eq, beq_iff_eq]
    change (addWithCarry x y carry).1 = 0 ↔ _
    exact toNat_eq.trans (by simp)
  · rw [Bool.eq_iff_iff, bne_iff_ne, decide_eq_true_iff]
    change (addWithCarry x y carry).1.toNat ≠ _ ↔ _
    omega
  · have hlow := (addWithCarry x y carry).1.le_toInt
    have hhigh := (addWithCarry x y carry).1.toInt_lt
    rw [Bool.eq_iff_iff, bne_iff_ne, decide_eq_true_iff]
    change (addWithCarry x y carry).1.toInt ≠ _ ↔ _
    constructor
    · refine fun hne => Decidable.byContradiction fun hfits => hne ?_
      rw [hsigned, toInt_ofInt_eq_self hw (by omega) (by omega)]
    · omega

/-- The unsigned sum is too large if the result is below a summand. -/
theorem carry_addWithCarry :
    (addWithCarry x y carry).2.c = if carry then decide ((addWithCarry x y carry).1 ≤ x)
      else decide ((addWithCarry x y carry).1 < x) := by
  have hsum := toNat_addWithCarry x y carry
  change ((addWithCarry x y carry).1.toNat != x.toNat + y.toNat + carry.toNat) = _
  rw [Bool.eq_iff_iff]
  cases carry <;> simp [le_def, lt_def] at hsum ⊢ <;> omega

/-- The signed sum is too large if the result has another sign than both summands. -/
theorem overflow_addWithCarry (hw : 0 < w) :
    (addWithCarry x y carry).2.v =
      ((x ^^^ (addWithCarry x y carry).1) &&& (y ^^^ (addWithCarry x y carry).1)).msb := by
  have hx : x.toNat < 2 ^ w := x.isLt
  have hy : y.toNat < 2 ^ w := y.isLt
  have hr : (addWithCarry x y carry).1.toNat < 2 ^ w := (addWithCarry x y carry).1.isLt
  have hcarry : carry.toNat ≤ 1 := Bool.toNat_le carry
  have hsum := toNat_addWithCarry x y carry
  have hhalf : 2 ^ w = 2 * 2 ^ (w - 1) := by rw [← Nat.pow_succ', Nat.succ_eq_add_one,
    Nat.sub_add_cancel hw]
  change ((addWithCarry x y carry).1.toInt != x.toInt + y.toInt + carry.toNat) = _
  rw [msb_and, msb_xor, msb_xor, Bool.eq_iff_iff]
  simp only [toInt_eq_msb_cond, msb_eq_decide, hhalf] at *
  generalize 2 ^ (w - 1) = m at *
  generalize (addWithCarry x y carry).1.toNat = r at *
  generalize x.toNat = a at *
  generalize y.toNat = b at *
  by_cases ha : m ≤ a <;> by_cases hb : m ≤ b <;> by_cases hr : m ≤ r <;> simp [ha, hb] <;> omega

end Dynarec.Guest

namespace Dynarec.Context

open Guest (Flag Nzcv)
open Guest.A64 (Reg)

variable (c : Context) {w : Nat}

def readX (w : Nat) (reg : Reg) : BitVec w :=
  match reg.slot? with
  | some n => (c.gpr n).toBitVec.setWidth w
  | none => 0

/-- A word becomes the value of a register, with zeros above it. -/
def writeX (reg : Reg) (x : BitVec w) : Context :=
  match reg.slot? with
  | some n => c.setGpr n ⟨x.setWidth 64⟩
  | none => c

def flags : Nzcv := ⟨c.flag .n != 0, c.flag .z != 0, c.flag .c != 0, c.flag .v != 0⟩

def setFlags (f : Nzcv) : Context :=
  (((c.setFlag .n f.n.toUInt32).setFlag .z f.z.toUInt32).setFlag .c f.c.toUInt32).setFlag .v
    f.v.toUInt32

def FlagsNormal : Prop := ∀ f, c.flag f = 0 ∨ c.flag f = 1

theorem flag_setFlag (f g : Flag) (v : UInt32) :
    (c.setFlag g v).flag f = if f = g then v else c.flag f := by
  split
  next heq =>
    subst heq
    exact Vector.getElem_set_self ..
  next hne =>
    refine Vector.getElem_set_ne g.index.isLt f.index.isLt fun heq => hne ?_
    cases f <;> cases g <;> first | rfl | cases heq

theorem flags_setFlag (g : Flag) (b : Bool) : (c.setFlag g b.toUInt32).flags = c.flags.set g b := by
  simp only [flags, flag_setFlag]
  cases g <;> cases b <;> rfl

variable {c}

theorem FlagsNormal.setFlag (h : c.FlagsNormal) (g : Flag) (b : Bool) :
    (c.setFlag g b.toUInt32).FlagsNormal := by
  intro f
  rw [flag_setFlag]
  split
  · cases b <;> decide
  · exact h f

theorem FlagsNormal.flag_eq (h : c.FlagsNormal) (f : Flag) :
    c.flag f = (c.flags.get f).toUInt32 := by
  have hget : c.flags.get f = (c.flag f != 0) := by cases f <;> rfl
  rw [hget]
  obtain hf | hf := h f <;> rw [hf] <;> rfl

end Dynarec.Context

namespace Dynarec.Guest.A64

def CompareOperand.value (c : Context) (w : Nat) : CompareOperand → BitVec w
  | imm value => .ofNat w value
  | reg rm => c.readX w rm

/-- The flags of the difference, or of the sum, of a register and an operand. -/
def comparison (c : Context) (wide negative : Bool) (rn : Reg) (operand : CompareOperand) : Nzcv :=
  let y := operand.value c (widthOf wide)
  (addWithCarry (c.readX _ rn) (if negative then y else ~~~y) (!negative)).2

end Dynarec.Guest.A64
