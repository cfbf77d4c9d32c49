import Dynarec.Proofs.IR.Meaning
import Mathlib.Algebra.Group.Nat.Defs

/-!
# Words

A value of a type is a word of as many bits, kept with zeros above it. Pure instructions compute on
words what their names say.
-/

namespace Dynarec.IR

open BitVec Ty

namespace Ty

variable (ty : Ty)

abbrev Word : Type := BitVec ty.bits

def extend (x : ty.Word) : UInt64 := ⟨x.setWidth 64⟩

def cut (v : UInt64) : ty.Word := v.toBitVec.setWidth ty.bits

variable {ty} {x y : ty.Word} {a b : UInt64}

theorem bits_le : ty.bits ≤ 64 := by cases ty <;> decide

theorem bits_pos : 0 < ty.bits := by cases ty <;> decide

@[simp] theorem cut_extend : ty.cut (ty.extend x) = x :=
  (setWidth_setWidth_of_le x bits_le).trans (setWidth_eq x)

@[simp] theorem toNat_extend : (ty.extend x).toNat = x.toNat := by
  change (x.setWidth 64).toNat = _
  rw [toNat_setWidth_of_le bits_le]

theorem toNat_cut : (ty.cut a).toNat = a.toNat % 2 ^ ty.bits := toNat_setWidth ..

theorem and_mask (v : UInt64) : v &&& ty.mask = ty.extend (ty.cut v) := by
  have hmask : ty.mask.toNat = 2 ^ ty.bits - 1 := by cases ty <;> decide
  apply UInt64.toNat_inj.mp
  rw [UInt64.toNat_and, hmask, Nat.and_two_pow_sub_one_eq_mod, toNat_extend, toNat_cut]

@[simp] theorem extend_and_mask : ty.extend x &&& ty.mask = ty.extend x := by
  rw [and_mask, cut_extend]

@[simp] theorem cut_add : ty.cut (a + b) = ty.cut a + ty.cut b := setWidth_add _ _ bits_le

@[simp] theorem cut_and : ty.cut (a &&& b) = ty.cut a &&& ty.cut b := setWidth_and

@[simp] theorem cut_or : ty.cut (a ||| b) = ty.cut a ||| ty.cut b := setWidth_or

@[simp] theorem cut_xor : ty.cut (a ^^^ b) = ty.cut a ^^^ ty.cut b := setWidth_xor

@[simp] theorem cut_not : ty.cut (~~~a) = ~~~ty.cut a := setWidth_not bits_le

theorem signed_eq : ty.signed a = (ty.cut a).toInt := by
  cases ty
  · rfl
  · exact congrArg BitVec.toInt (setWidth_eq _).symm

theorem signed_extend : ty.signed (ty.extend x) = x.toInt := by rw [signed_eq, cut_extend]

theorem cut_ofInt (i : Int) : ty.cut (UInt64.ofInt i) = BitVec.ofInt ty.bits i := by
  apply eq_of_toNat_eq
  rw [toNat_cut, toNat_ofInt]
  simp only [UInt64.ofInt, UInt64.toNat_ofNat']
  cases ty <;> simp only [bits] <;> omega

theorem cut_ofNat (n : Nat) : ty.cut (UInt64.ofNat n) = BitVec.ofNat ty.bits n := by
  apply eq_of_toNat_eq
  have hdvd : 2 ^ ty.bits ∣ 2 ^ 64 := by cases ty <;> decide
  rw [toNat_cut, toNat_ofNat, UInt64.toNat_ofNat', Nat.mod_mod_of_dvd n hdvd]

theorem cut_and_mask : ty.cut (a &&& ty.mask) = ty.cut a := by rw [and_mask, cut_extend]

end Ty

namespace Value

variable {ty : Ty} (a b : UInt64)

/-- The amount of a shift depends on the word only. -/
theorem amount_eq : amount ty b = (ty.cut b).toNat % ty.bits := by
  have hdvd : ty.bits ∣ 2 ^ ty.bits := by cases ty <;> decide
  rw [toNat_cut, Nat.mod_mod_of_dvd _ hdvd, amount]

theorem toNat_amount : (amount ty b).toUInt64.toNat % 64 = amount ty b := by
  have hlt : amount ty b < ty.bits := Nat.mod_lt _ bits_pos
  have hbits : ty.bits ≤ 64 := bits_le
  simp only [UInt64.toNat_ofNat']
  omega

theorem cut_shiftLeft : ty.cut (shiftLeft ty a b) = ty.cut a <<< ((ty.cut b).toNat % ty.bits) := by
  rw [shiftLeft, cut, UInt64.toBitVec_shiftLeft, shiftLeft_eq',
    setWidth_shiftLeft_of_le bits_le, ← amount_eq]
  exact congrArg _ (toNat_amount b)

theorem cut_shiftRightLogical : ty.cut (shiftRightLogical ty a b) =
    ty.cut a >>> ((ty.cut b).toNat % ty.bits) := by
  have heq : shiftRightLogical ty a b = ty.extend (ty.cut a >>> ((ty.cut b).toNat % ty.bits)) := by
    apply UInt64.toNat_inj.mp
    rw [shiftRightLogical, and_mask, UInt64.toNat_shiftRight, toNat_amount, amount_eq,
      toNat_extend, toNat_extend, toNat_ushiftRight]
  rw [heq, cut_extend]

end Value

/-- What a pure instruction of one or two sources makes of words. -/
def Instruction.onWords (inst : Instruction) {w : Nat} (x y : BitVec w) : BitVec w :=
  match inst with
  | add => x + y
  | and => x &&& y
  | or => x ||| y
  | xor => x ^^^ y
  | not => ~~~x
  | shiftLeft => x <<< (y.toNat % w)
  | shiftRightLogical => x >>> (y.toNat % w)
  | shiftRightArithmetic => x.sshiftRight (y.toNat % w)
  | _ => 0

class Wordwise (inst : Instruction) : Prop where
  pureValue_eq : ∀ (ty sourceTy : Ty) (a b c : UInt64),
    inst.pureValue ty sourceTy a b c = ty.extend (inst.onWords (ty.cut a) (ty.cut b))

section Wordwise

variable {inst : Instruction}

theorem wordwise_of_cut (v : Ty → UInt64 → UInt64 → UInt64)
    (h : ∀ ty sourceTy a b c, inst.pureValue ty sourceTy a b c = v ty a b &&& ty.mask)
    (hcut : ∀ (ty : Ty) a b, ty.cut (v ty a b) = inst.onWords (ty.cut a) (ty.cut b)) :
    Wordwise inst :=
  ⟨fun ty sourceTy a b c => by rw [h, and_mask, hcut]⟩

instance wordwise_add : Wordwise .add :=
  wordwise_of_cut _ (fun _ _ _ _ _ => rfl) fun _ _ _ => cut_add

instance wordwise_and : Wordwise .and :=
  wordwise_of_cut _ (fun _ _ _ _ _ => rfl) fun _ _ _ => cut_and

instance wordwise_or : Wordwise .or := wordwise_of_cut _ (fun _ _ _ _ _ => rfl) fun _ _ _ => cut_or

instance wordwise_xor : Wordwise .xor :=
  wordwise_of_cut _ (fun _ _ _ _ _ => rfl) fun _ _ _ => cut_xor

instance wordwise_not : Wordwise .not :=
  wordwise_of_cut _ (fun _ _ _ _ _ => rfl) fun _ _ _ => cut_not

instance wordwise_shiftLeft : Wordwise .shiftLeft :=
  wordwise_of_cut _ (fun _ _ _ _ _ => rfl) fun _ => Value.cut_shiftLeft

instance wordwise_shiftRightLogical : Wordwise .shiftRightLogical :=
  wordwise_of_cut _ (fun _ _ _ _ _ => rfl) fun _ => Value.cut_shiftRightLogical

instance wordwise_shiftRightArithmetic : Wordwise .shiftRightArithmetic :=
  wordwise_of_cut _ (fun _ _ _ _ _ => rfl) fun _ a b => by
    rw [Value.shiftRightArithmetic, signed_eq, Value.amount_eq, cut_ofInt]
    rfl

end Wordwise

/-! ### Flags -/

def flagWord (b : Bool) : i32.Word := BitVec.ofNat _ b.toNat

def Comparison.onWords (cmp : Comparison) {w : Nat} (x y : BitVec w) : Bool :=
  match cmp with
  | eq => x == y
  | ne => x != y
  | ult => x < y
  | ule => x ≤ y
  | ugt => y < x
  | uge => y ≤ x
  | slt => x.toInt < y.toInt
  | sle => x.toInt ≤ y.toInt
  | sgt => y.toInt < x.toInt
  | sge => y.toInt ≤ x.toInt

theorem Comparison.holds_extend {ty : Ty} (cmp : Comparison) (x y : ty.Word) :
    cmp.holds ty (ty.extend x) (ty.extend y) = cmp.onWords x y := by
  have heq : (ty.extend x == ty.extend y) = (x == y) := by
    rw [Bool.eq_iff_iff, beq_iff_eq, beq_iff_eq]
    exact ⟨fun h => by rw [← cut_extend (x := x), h, cut_extend], fun h => h ▸ rfl⟩
  cases cmp <;> simp only [holds, onWords, signed_extend, bne, heq, UInt64.lt_iff_toNat_lt,
    UInt64.le_iff_toNat_le, toNat_extend, lt_def, le_def]

theorem Comparison.pureValue_eq {ty : Ty} (cmp : Comparison) (a b c : UInt64) :
    (Instruction.compare cmp).pureValue .i32 ty a b c =
      i32.extend (flagWord (cmp.onWords (ty.cut a) (ty.cut b))) := by
  change (if cmp.holds ty (a &&& ty.mask) (b &&& ty.mask) then 1 else 0) &&& i32.mask = _
  rw [and_mask a, and_mask b, cmp.holds_extend]
  cases cmp.onWords (ty.cut a) (ty.cut b) <;> rfl

/-- The most significant bit, moved down. -/
theorem setWidth_msb {ty : Ty} (x : ty.Word) :
    (x >>> (ty.bits - 1)).setWidth i32.bits = flagWord x.msb := by
  apply eq_of_toNat_eq
  rw [toNat_setWidth, toNat_ushiftRight, flagWord, toNat_ofNat, msb_eq_decide]
  by_cases hle : 2 ^ (ty.bits - 1) ≤ x.toNat
  · rw [decide_eq_true hle, Bool.toNat_true]
    cases ty <;> simp only [bits] at * <;> omega
  · rw [decide_eq_false hle, Bool.toNat_false]
    cases ty <;> simp only [bits] at * <;> omega

theorem pureValue_select {ty : Ty} (t : Bool) (a b : UInt64) :
    Instruction.select.pureValue ty .i32 (i32.extend (flagWord t)) a b =
      ty.extend (if t then ty.cut a else ty.cut b) := by
  cases t
  · exact and_mask b
  · exact and_mask a

end Dynarec.IR
