import Dynarec.Proofs.Host.Allocation

/-!
# The context in memory

Instructions reach the context by offsets. A load or a store at the offset of a field is a read or a
change of that field, whatever other fields have offsets of their own; so are the accesses by which
a dispatch looks at the interrupt flag and the synchronization counter.
-/

namespace Dynarec

open Context

theorem IR.Ty.toUInt64_and_mask (v : UInt32) (ty : IR.Ty) :
    v.toUInt64 &&& ty.mask = v.toUInt64 := by
  cases ty with
  | i64 => exact Ty.and_i64_mask _
  | i32 =>
    exact congrArg UInt32.toUInt64 UInt32.and_neg_one

namespace Host

open IR (Field Ty)

def Surroundings.storePc {ω : Type} (host : Surroundings ω) (pc : UInt64) (w : ω) : ω :=
  host.mapContext (fun _ => (host.context w).leave pc) w

def Surroundings.countDown {ω : Type} (host : Surroundings ω) (w : ω) : ω :=
  host.mapContext (fun _ =>
    { host.context w with syncCounter := (host.context w).syncCounter - 1 }) w

namespace Asm

variable {r : Reg} {i : Gp} {width : Width} (a : Assembler) (disp imm : Int32)

theorem run_storeImm (hw : width = .b32 ∨ width = .b64) (hi : r.gp? = some i) :
    ∃ ty, (storeImm width r disp imm).run a =
      (.ok (), a.push (.storeImm ty i disp imm)) ∧ Exec.widthOf ty = width := by
  rcases hw with rfl | rfl
  · refine ⟨.i32, ?_, rfl⟩
    simp only [storeImm, gp, hi]
    rfl
  · refine ⟨.i64, ?_, rfl⟩
    simp only [storeImm, gp, hi]
    rfl

end Asm

namespace Exec

variable {field : Field} {width : Width} {v : UInt64} {imm : Int32}

theorem lowBits_b32 (v : UInt64) : lowBits .b32 v = v &&& Ty.i32.mask := by
  have hlow : lowBits .b32 v = (v.toNat % 2 ^ 32).toUInt64 := rfl
  have hlt : v.toNat % 2 ^ 32 < 2 ^ 64 := by omega
  apply UInt64.toNat_inj.mp
  rw [hlow, UInt64.toNat_ofNat_of_lt' hlt]
  exact (Nat.and_two_pow_sub_one_eq_mod v.toNat 32).symm

/-- The field that is found at the offset of a field is that field. -/
theorem exists_fieldAt (field : Field) : ∃ found, fieldAt? field.offset = some found ∧
    found.size = field.size ∧ (∀ c : Context, c.get found = c.get field) ∧
      ∀ (c : Context) v, c.put found v = c.put field v := by
  cases field with
  | register r =>
    cases r with
    | gpr n =>
      have hall : ∀ k : Fin 32, fieldAt? (8 * k.val) = some (.register (.gpr k.val)) := by decide
      have hslot : slot (n % 32) = slot n := by simp [slot]
      refine ⟨.register (.gpr (n % 32)), ?_, rfl, fun c => ?_, fun c v => ?_⟩
      · simpa [Field.offset, xOffset] using hall ⟨n % 32, Nat.mod_lt n (by decide)⟩
      · simp only [Context.get, gpr, hslot]
      · simp only [put, setGpr, hslot]
    | flag f => exact ⟨.register (.flag f), by cases f <;> decide, rfl, fun _ => rfl,
      fun _ _ => rfl⟩
  | pc | running | tpidrEl0 | tpidrroEl0 | fpcr | fpsr =>
    exact ⟨_, rfl, rfl, fun _ => rfl, fun _ _ => rfl⟩

/-- Fields lie before the interrupt flag and the synchronization counter. -/
theorem offset_lt (field : Field) : field.offset < 828 := by
  cases field with
  | register r =>
    cases r with
    | gpr n =>
      simp only [Field.offset, xOffset]
      omega
    | flag f => cases f <;> decide
  | _ => decide

theorem contextDisp_toNat {n : Nat} (hn : n < 2 ^ 31) :
    (Codegen.contextDisp n).toInt.toNat = n := by
  rw [Codegen.contextDisp, Int32.toInt_ofNat_of_lt hn, Int.toNat_natCast]

/-- A field of four bytes has no more than 32 bits. -/
theorem get_and_mask (h : field.size = 4) (c : Context) (ty : Ty) :
    c.get field &&& ty.mask = c.get field := by
  cases field with
  | register r =>
    cases r with
    | gpr n => cases h
    | flag f => exact Ty.toUInt64_and_mask (c.flag f) ty
  | running => exact Ty.toUInt64_and_mask c.running ty
  | _ => cases h

theorem size_eq (field : Field) : field.size = 4 ∨ field.size = 8 := by
  cases field with
  | register r =>
    cases r with
    | gpr n => exact .inr rfl
    | flag f => exact .inl rfl
  | running => exact .inl rfl
  | _ => exact .inr rfl

/-- Fields are accessed in words. -/
theorem word_of_field (hwidth : Width.ofBytes? field.size = some width) :
    width = .b32 ∨ width = .b64 := by
  rcases size_eq field with h4 | h8
  · rw [h4] at hwidth
    exact .inl (Option.some.inj hwidth).symm
  · rw [h8] at hwidth
    exact .inr (Option.some.inj hwidth).symm

variable {ω : Type} (host : Surroundings ω) {g : Gp}

/-- A load of as many bytes as fit gives the value of the field in the type. -/
theorem load?_field {ty : Ty} (hg : contextReg.gp? = some g) (c : Cpu) (w : ω)
    (hwidth : Width.ofBytes? (min field.size (ty.bits / 8)) = some width) :
    load? host c w width g (Codegen.contextDisp field.offset) =
      some ((host.context w).get field &&& ty.mask) := by
  obtain ⟨found, hfound, hsize, hget, -⟩ := exists_fieldAt field
  have hoff := offset_lt field
  have hctx : isContext g = true := beq_iff_eq.mpr hg
  have hne₁ : field.offset ≠ interruptOffset := hoff.ne
  have hne₂ : field.offset ≠ syncCounterOffset := (hoff.trans (by decide)).ne
  rw [load?, if_pos hctx, contextDisp_toNat (by omega), contextLoad?, if_neg hne₁,
    if_neg hne₂, hfound]
  have key : widthBits width ≤ 8 * found.size ∧
      lowBits width ((host.context w).get field) = (host.context w).get field &&& ty.mask := by
    rw [hsize]
    rcases size_eq field with h4 | h8
    · rw [h4] at hwidth ⊢
      have hw : width = .b32 := by cases ty <;> exact (Option.some.inj hwidth).symm
      subst hw
      refine ⟨by decide, ?_⟩
      rw [lowBits_b32, get_and_mask h4, get_and_mask h4]
    · rw [h8] at hwidth ⊢
      cases ty with
      | i32 =>
        cases hwidth
        exact ⟨by decide, lowBits_b32 _⟩
      | i64 =>
        cases hwidth
        exact ⟨by decide, by rw [lowBits_b64, Ty.and_i64_mask]⟩
  simp [key, hget]

/-- A store of the width of the field changes it. -/
theorem store?_field (hg : contextReg.gp? = some g) (c : Cpu) (w : ω) (v : UInt64)
    (hwidth : Width.ofBytes? field.size = some width) :
    store? host c w width g (Codegen.contextDisp field.offset) v =
      some (c, host.mapContext (fun _ => (host.context w).put field v) w) := by
  obtain ⟨found, hfound, hsize, -, hput⟩ := exists_fieldAt field
  have hoff := offset_lt field
  have hctx : isContext g = true := beq_iff_eq.mpr hg
  have hne₁ : field.offset ≠ interruptOffset := hoff.ne
  have hne₂ : field.offset ≠ syncCounterOffset := (hoff.trans (by decide)).ne
  have hbits : widthBits width = 8 * found.size := by
    rw [hsize]
    rcases size_eq field with h4 | h8
    · rw [h4] at hwidth ⊢
      cases hwidth
      rfl
    · rw [h8] at hwidth ⊢
      cases hwidth
      rfl
  rw [store?, if_pos hctx, contextDisp_toNat (by omega), contextStore?, if_neg hne₁,
    if_neg hne₂, hfound]
  simp [hbits, hput]

/-! ### Immediates -/

theorem toBitVec_ofInt (x : Int) : (UInt64.ofInt x).toBitVec = BitVec.ofInt 64 x := by
  apply BitVec.eq_of_toNat_eq
  exact Nat.mod_eq_of_lt (by omega)

theorem ofInt_of_sign32 (h : Value.sign32? v = some imm) : UInt64.ofInt imm.toInt = v := by
  unfold Value.sign32? at h
  split at h
  next hfits =>
    cases h
    have hint : v.toInt64.toInt32.toInt = v.toInt64.toInt := by
      rw [← Int32.toInt_toInt64, hfits]
    apply UInt64.toBitVec_inj.mp
    rw [hint, toBitVec_ofInt]
    exact BitVec.ofInt_toInt
  · cases h

theorem toUInt32_ofInt (v : UInt32) : (UInt64.ofInt v.toInt32.toInt).toUInt32 = v := by
  have hsign : BitVec.ofInt 64 v.toInt32.toInt = v.toBitVec.signExtend 64 := rfl
  apply UInt32.toBitVec_inj.mp
  rw [UInt64.toBitVec_toUInt32, toBitVec_ofInt, hsign]
  ext i hi
  rw [BitVec.getElem_setWidth, BitVec.getLsbD_signExtend]
  simp [hi]
  omega

/-- Storing an immediate in place of the value it stands for. -/
theorem put_imm (hwidth : Width.ofBytes? field.size = some width) (c : Context)
    (himm : imm = v.toUInt32.toInt32 ∧ width = .b32 ∨ Value.sign32? v = some imm) :
    c.put field (UInt64.ofInt imm.toInt) = c.put field v := by
  rcases himm with ⟨rfl, rfl⟩ | hsign
  · have hcut := toUInt32_ofInt v.toUInt32
    cases field with
    | register r =>
      cases r with
      | gpr n => cases hwidth
      | flag f => simp only [put, hcut]
    | running => simp only [put, hcut]
    | _ => cases hwidth
  · rw [ofInt_of_sign32 hsign]

/-! ### The interrupt flag and the synchronization counter -/

theorem and_i32_mask (v : UInt64) : v &&& Ty.i32.mask = v.toUInt32.toUInt64 := by
  apply UInt64.toNat_inj.mp
  exact Nat.and_two_pow_sub_one_eq_mod v.toNat 32

theorem toUInt32_sub_one (v : Int32) : (v.toUInt32.toUInt64 - 1).toUInt32 = (v - 1).toUInt32 := by
  rw [UInt64.toUInt32_sub, UInt32.toUInt32_toUInt64]
  rfl

theorem signed_toUInt64 (v : Int32) : Ty.i32.signed v.toUInt32.toUInt64 = v.toInt := by
  simp [Ty.signed]

theorem toUInt64_eq_zero {v : Int32} : v.toUInt32.toUInt64 = 0 ↔ v.toInt = 0 := by
  have hword : v.toUInt32.toUInt64 = 0 ↔ v.toUInt32 = 0 := UInt32.toUInt64_inj (b := 0)
  have hbits : v.toUInt32 = 0 ↔ v = 0 :=
    ⟨fun h => by simpa using congrArg UInt32.toInt32 h, fun h => h ▸ rfl⟩
  have hint : v.toInt = 0 ↔ v = 0 := Int32.toInt_inj (y := 0)
  rw [hword, hbits, hint]

/-- The flags of a subtraction of one say whether the number was at most one, also where the
subtraction overflows. -/
theorem holds_le_subFlags (v : Int32) :
    (subFlags .i32 v.toUInt32.toUInt64 1).holds .le = decide (v ≤ 1) := by
  have hdiff : (v.toUInt32.toUInt64 - 1) &&& Ty.i32.mask = (v - 1).toUInt32.toUInt64 := by
    rw [and_i32_mask, toUInt32_sub_one]
  have hone : 1 &&& Ty.i32.mask = 1 := by decide
  have hsigned : Ty.i32.signed 1 = 1 := by decide
  have hle : v ≤ 1 ↔ v.toInt ≤ 1 := Int32.le_iff_toInt_le
  have hsub : (v - 1).toInt = (v.toInt - 1).bmod (2 ^ 32) := Int32.toInt_sub v 1
  have hlo : -2147483648 ≤ v.toInt := v.minValue_le_toInt
  have hhi : v.toInt < 2147483648 := v.toInt_lt
  rw [Int.bmod_def] at hsub
  simp only [Flags.holds, subFlags, Ty.toUInt64_and_mask, hone, hdiff, signBit, signed_toUInt64,
    hsigned]
  rw [Bool.eq_iff_iff]
  simp only [hle, Bool.or_eq_true, beq_iff_eq, toUInt64_eq_zero]
  by_cases hmin : v.toInt = -2147483648
  · rw [hmin] at hsub ⊢
    simp [hsub]
  · have hdiff : (v - 1).toInt = v.toInt - 1 := by
      split at hsub <;> omega
    simp only [hdiff]
    simp
    omega

theorem step_checkInterrupt (hg : contextReg.gp? = some g) (c : Cpu) (w : ω) : ∃ flags,
    step host c w (.cmpMemImm .i32 g (Codegen.contextDisp interruptOffset) 0) =
      .next { c with flags } w ∧
    flags.holds .ne = ((host.context w).interrupt != 0) := by
  have hctx : isContext g = true := beq_iff_eq.mpr hg
  have hload : load? host c w .b32 g (Codegen.contextDisp interruptOffset) =
      some (host.context w).interrupt.toUInt64 := by
    rw [load?, if_pos hctx, contextDisp_toNat (by decide), contextLoad?, if_pos rfl]
  refine ⟨subFlags .i32 (host.context w).interrupt.toUInt64 0, ?_, ?_⟩
  · simp only [step, widthOf, hload]
    rfl
  · simp [Flags.holds, subFlags, Ty.toUInt64_and_mask, bne, ← UInt32.toUInt64_inj]

theorem step_countDown (hg : contextReg.gp? = some g) (c : Cpu) (w : ω) : ∃ flags,
    step host c w (.subMemImm .i32 g (Codegen.contextDisp syncCounterOffset) 1) =
      .next { c with flags } (host.countDown w) ∧
    flags.holds .le = decide ((host.context w).syncCounter ≤ 1) := by
  have hctx : isContext g = true := beq_iff_eq.mpr hg
  have hoffset : (Codegen.contextDisp syncCounterOffset).toInt.toNat =
      syncCounterOffset := contextDisp_toNat (by decide)
  have hne : syncCounterOffset ≠ interruptOffset := by decide
  have hload : load? host c w .b32 g (Codegen.contextDisp syncCounterOffset) =
      some (host.context w).syncCounter.toUInt32.toUInt64 := by
    rw [load?, if_pos hctx, hoffset, contextLoad?, if_neg hne, if_pos rfl]
  have hstore : ∀ v, store? host c w .b32 g (Codegen.contextDisp syncCounterOffset) v =
      some (c, host.mapContext (fun _ =>
        { host.context w with syncCounter := v.toUInt32.toInt32 }) w) := by
    intro v
    rw [store?, if_pos hctx]
    rfl
  have himm : UInt64.ofInt (1 : Int32).toInt = 1 := by decide
  refine ⟨subFlags .i32 (host.context w).syncCounter.toUInt32.toUInt64 1, ?_, holds_le_subFlags _⟩
  simp only [step, widthOf, hload, hstore, himm, toUInt32_sub_one]
  rfl

end Exec

end Host

end Dynarec
