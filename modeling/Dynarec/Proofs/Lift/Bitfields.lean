import Dynarec.Proofs.Lift.LateReads

/-!
# Moves of bit fields

The code moves a field of bits down or up with shifts and masks; the architecture rotates the source
and picks bits with two masks.
-/

namespace Dynarec.Guest.A64

def elementMasks (w size imms immr : Nat) : BitVec w × BitVec w :=
  let s := imms % size
  let r := immr % size
  let ones (n : Nat) : BitVec size := .ofNat size (2 ^ n - 1)
  let repeated (x : BitVec size) : BitVec w := (x.replicate (w / size)).setWidth w
  (repeated ((ones (s + 1)).rotateRight r), repeated (ones ((s + size - r) % size + 1)))

def decodeBitMasks (w : Nat) (n : Bool) (imms immr : Nat) : BitVec w × BitVec w :=
  elementMasks w (2 ^ (n.toNat * 64 + (63 - imms)).log2) imms immr

/-- What a move of the field of `src` that `immr` and `imms` give makes of `dst`. -/
def bitfieldMove {w : Nat} (n : Bool) (op : BitfieldOp) (dst src : BitVec w) (immr imms : Nat) :
    BitVec w :=
  let (wmask, tmask) := decodeBitMasks w n imms immr
  let dst := if op = .bfm then dst else 0
  let bot := (dst &&& ~~~wmask) ||| (src.rotateRight immr &&& wmask)
  let top := if op = .sbfm ∧ src.getLsbD imms then .allOnes w else dst
  (top &&& ~~~tmask) ||| (bot &&& tmask)

theorem getLsbD_ones {w n i : Nat} (hi : i < w) :
    (BitVec.ofNat w (2 ^ n - 1)).getLsbD i = decide (i < n) := by
  rw [BitVec.getLsbD_ofNat, Nat.testBit_two_pow_sub_one, decide_eq_true hi, Bool.true_and]

/-- The masks of elements as wide as the word. -/
theorem getLsbD_elementMasks {w r s i : Nat} (hr : r < w) (hs : s < w) (hi : i < w) :
    (elementMasks w w s r).1.getLsbD i =
      decide ((if i < w - r then r + i else i - (w - r)) ≤ s) ∧
    (elementMasks w w s r).2.getLsbD i = decide (i ≤ if r ≤ s then s - r else s + w - r) := by
  have hdiv : w * (w / w) = w := by rw [Nat.div_self (by omega), Nat.mul_one]
  have hd : (s + w - r) % w = if r ≤ s then s - r else s + w - r := by
    split
    · rw [show s + w - r = s - r + w by omega, Nat.add_mod_right, Nat.mod_eq_of_lt (by omega)]
    · exact Nat.mod_eq_of_lt (by omega)
  simp only [elementMasks, Nat.mod_eq_of_lt hr, Nat.mod_eq_of_lt hs, BitVec.getLsbD_setWidth,
    BitVec.getLsbD_replicate, hdiv, Nat.mod_eq_of_lt hi, decide_eq_true hi, Bool.true_and,
    BitVec.getLsbD_rotateRight, hd, getLsbD_ones hi, Nat.lt_succ_iff, and_true]
  split
  · rw [decide_eq_true ‹_›, cond_true, getLsbD_ones (by omega)]
    simp only [Nat.lt_succ_iff]
  · rw [decide_eq_false ‹_›, cond_false, getLsbD_ones (by omega)]
    simp only [Nat.lt_succ_iff]

theorem decodeBitMasks_eq {w : Nat} {n : Bool} {imms : Nat} (hw : widthOf n = w) (hs : imms < w)
    (immr : Nat) : decodeBitMasks w n imms immr = elementMasks w w imms immr := by
  subst hw
  have hsize : 2 ^ (n.toNat * 64 + (63 - imms)).log2 = widthOf n := by
    cases n
    · change imms < 32 at hs
      rw [(Nat.log2_eq_iff (k := 5) (by simp; omega)).mpr (by simp; omega)]
      rfl
    · change imms < 64 at hs
      rw [(Nat.log2_eq_iff (k := 6) (by simp)).mpr (by simp; omega)]
      rfl
  rw [decodeBitMasks, hsize]

/-- The bits of a moved field, of what is below it, and of what is above it. -/
theorem getLsbD_bitfieldMove {w : Nat} {n : Bool} {immr imms i : Nat} (hw : widthOf n = w)
    (hr : immr < w) (hs : imms < w) (hi : i < w) (op : BitfieldOp) (dst src : BitVec w) :
    (bitfieldMove n op dst src immr imms).getLsbD i =
      let kept := op = .bfm && dst.getLsbD i
      let above := if op = .sbfm then src.getLsbD imms else kept
      if immr ≤ imms then if i ≤ imms - immr then src.getLsbD (immr + i) else above
      else if i < w - immr then kept
      else if i ≤ imms + w - immr then src.getLsbD (i - (w - immr)) else above := by
  have hkept : (if op = .bfm then dst else 0).getLsbD i = (op = .bfm && dst.getLsbD i) := by
    by_cases hop : op = .bfm <;> simp [hop]
  have habove : (if op = .sbfm ∧ src.getLsbD imms then .allOnes _ else
      if op = .bfm then dst else 0).getLsbD i =
        if op = .sbfm then src.getLsbD imms else op = .bfm && dst.getLsbD i := by
    rw [← hkept]
    cases op <;> cases src.getLsbD imms <;> simp [hi]
  obtain ⟨hwmask, htmask⟩ := getLsbD_elementMasks hr hs hi
  simp only [bitfieldMove, decodeBitMasks_eq hw hs, BitVec.getLsbD_or, BitVec.getLsbD_and,
    BitVec.getLsbD_not, hwmask, htmask, hkept, habove, decide_eq_true hi, Bool.true_and,
    BitVec.getLsbD_rotateRight, Nat.mod_eq_of_lt hr]
  grind

end Dynarec.Guest.A64

namespace Dynarec.Lift.A64

open Guest (Opcode)
open Guest.A64
open IR (Ty)

def movedField {w : Nat} (op : BitfieldOp) (dst src : BitVec w) (immr imms : Nat) : BitVec w :=
  let low (n : Nat) : BitVec w := .ofNat w (2 ^ n - 1)
  if immr ≤ imms then
    let len := imms - immr + 1
    match op with
    | .ubfm => src >>> immr &&& low len
    | .sbfm => (src <<< (w - immr - len)).sshiftRight (w - len)
    | .bfm => dst &&& ~~~low len ||| src >>> immr &&& low len
  else
    let position := w - immr
    let len := imms + 1
    match op with
    | .ubfm => (src &&& low len) <<< position
    | .sbfm => ((src <<< (w - len)).sshiftRight (w - len)) <<< position
    | .bfm => dst &&& ~~~(low len <<< position) ||| (src &&& low len) <<< position

theorem getLsbD_signField {w r len i : Nat} (x : BitVec w) (hlen : 0 < len) (hle : r + len ≤ w)
    (hi : i < w) : ((x <<< (w - r - len)).sshiftRight (w - len)).getLsbD i =
      x.getLsbD (if i < len then r + i else r + len - 1) := by
  rw [BitVec.getLsbD_sshiftRight, BitVec.msb_eq_getLsbD_last]
  simp only [BitVec.getLsbD_shiftLeft]
  by_cases hlt : i < len
  · rw [if_pos hlt, if_pos (by omega), show w - len + i - (w - r - len) = r + i by omega]
    grind
  · rw [if_neg hlt, if_neg (by omega), show w - 1 - (w - r - len) = r + len - 1 by omega]
    grind

theorem movedField_eq {w : Nat} {n : Bool} {immr imms : Nat} (hw : widthOf n = w) (hr : immr < w)
    (hs : imms < w) (op : BitfieldOp) (dst src : BitVec w) :
    movedField op dst src immr imms = bitfieldMove n op dst src immr imms := by
  refine BitVec.eq_of_getLsbD_eq fun i hi => ?_
  rw [getLsbD_bitfieldMove hw hr hs hi, movedField]
  by_cases hle : immr ≤ imms
  · have hsign := getLsbD_signField src (Nat.succ_pos (imms - immr)) (r := immr) (by omega) hi
    cases op <;> simp only [hle, if_true, BitVec.getLsbD_and, BitVec.getLsbD_or,
      BitVec.getLsbD_not, BitVec.getLsbD_ushiftRight, getLsbD_ones hi, hsign] <;> grind
  · have hsign (j : Nat) (hj : j < w) :=
      getLsbD_signField src (Nat.succ_pos imms) (r := 0) (by omega) hj
    cases op <;> simp only [hle, if_false, BitVec.getLsbD_and, BitVec.getLsbD_or,
      BitVec.getLsbD_not, BitVec.getLsbD_shiftLeft] <;> grind [getLsbD_ones]

variable {answer : IR.Request → Context → UInt64 × Context} {c : Context} {op : Opcode}
  {known : List Fact} {ty : Ty}

theorem amount_toUInt64 {n : Nat} (hn : n < ty.bits) : (ty.cut n.toUInt64).toNat % ty.bits = n := by
  have hlt : n < 2 ^ ty.bits := hn.trans Nat.lt_two_pow_self
  rw [show n.toUInt64 = UInt64.ofNat n from rfl, Ty.cut_ofNat, BitVec.toNat_ofNat,
    Nat.mod_eq_of_lt hlt, Nat.mod_eq_of_lt hn]

theorem cut_lowMask (n : Nat) : ty.cut (lowMask n) = BitVec.ofNat ty.bits (2 ^ n - 1) := by
  rw [← Ty.cut_ofNat, ← Nat.one_shiftLeft]
  rfl

theorem cut_shiftLeft_toUInt64 (a : UInt64) {n : Nat} (hn : n < ty.bits) :
    ty.cut (a <<< n.toUInt64) = ty.cut a <<< n := by
  have hcut : ty.cut (IR.Value.shiftLeft ty a n.toUInt64) = _ := IR.Value.cut_shiftLeft a _
  rwa [IR.Value.shiftLeft, IR.Value.amount_eq, amount_toUInt64 hn] at hcut

theorem runs_moveField (bop : BitfieldOp) (rd : Reg) {src : Value} {f : Context → UInt64}
    [ha : Tells src ty f known] {immr imms : Nat} (hr : immr < ty.bits) (hs : imms < ty.bits) :
    Runs (contextHost answer) .a64 known (moveField bop rd src immr imms) c c fun v => [⟨v, ty,
      fun _ => ty.extend (movedField bop (c.readX _ rd) (ty.cut (seen c f)) immr imms)⟩] := by
  refine .of_ty ha fun hty => ?_
  unfold moveField movedField
  split <;> cases bop <;> simp only [fieldDown, fieldUp, hty] <;>
    refine Runs.congr inferInstance fun v => ?_ <;>
    simp (disch := omega) only [seen, IR.Wordwise.pureValue_eq, Ty.cut_extend, Ty.cut_and_mask,
      Ty.cut_not, IR.Instruction.onWords, cut_lowMask, contextHost, id, ite_self, amount_toUInt64,
      cut_shiftLeft_toUInt64]

/-- Moves of bit fields do what the architecture says, for every field that is decoded. -/
theorem bitfield_moves_field {wide : Bool} {bop : BitfieldOp} {rd rn : Reg} {immr imms : Nat}
    (hop : op.instr = .a64 (.bitfield wide bop rd rn immr imms)) (hrange : op.instr.InRange) :
    Executes .a64 op c (.dispatch op.next) (c.writeX rd (bitfieldMove wide bop
      (c.readX (widthOf wide) rd) (c.readX (widthOf wide) rn) immr imms)) := by
  rw [hop] at hrange
  have hw : widthOf wide = (width wide).bits := by cases wide <;> rfl
  obtain ⟨hr, hs⟩ : immr < widthOf wide ∧ imms < widthOf wide := hrange
  rw [hw] at hr hs ⊢
  refine executes hop (outcome_of_runs fun answer => ?_)
  refine runs_bind inferInstance fun src => ?_
  rw [Nat.mod_eq_of_lt hr, Nat.mod_eq_of_lt hs]
  refine runs_bind (runs_moveField bop rd hr hs) fun result => .world_eq inferInstance ?_
  simp only [seen, Ty.cut_extend, ite_self, movedField_eq hw hr hs]

/-- `bfi x0, x1, #60, #4` -/
theorem bitfield_moves_field_insert :
    let c := (Context.zero.setGpr 0 5).setGpr 1 0x7a
    Executes .a64 (Opcode.decode .a64 0x1000 0xb3440c20) c (.dispatch 0x1004)
      (c.setGpr 0 0xa000000000000005) := by
  intro c
  have hop : (Opcode.decode .a64 0x1000 0xb3440c20).instr =
      .a64 (.bitfield true .bfm (.x 0) (.x 1) 4 3) := rfl
  have hmove : bitfieldMove true .bfm (c.readX (widthOf true) (.x 0)) (c.readX _ (.x 1)) 4 3 =
      0xa000000000000005 := by decide +kernel
  have hexecutes := bitfield_moves_field (c := c) hop (Opcode.inRange_decode ..)
  rwa [hmove] at hexecutes

end Dynarec.Lift.A64
