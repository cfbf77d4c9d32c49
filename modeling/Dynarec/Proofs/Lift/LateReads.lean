import Dynarec.Proofs.Lift.Values

/-!
# Registers read late

Code names registers and flags where it uses them, so it sees what the instruction itself has
written to them before. For a comparison on a condition that is a single flag, and for a branch to
the link register that sets the link register, this is not what the instruction is to do.
-/

namespace Dynarec.Lift

open Guest (Cond Flag Mode Nzcv Opcode)
open IR (Ty flagWord)

variable {answer : IR.Request → Context → UInt64 × Context} {c : Context} {mode : Mode}
  {op : Opcode} {known : List Fact}

/-! ### Registers -/

namespace A64

open Guest.A64

/-- A register of full width stands for what it holds where it is used. -/
instance runs_read (reg : Reg) (ty : Ty) : Runs (contextHost answer) .a64 known (read reg ty) c c
    fun v => [⟨v, ty, fun d => ty.extend ((if ty = .i64 then d else c).readX ty.bits reg)⟩] := by
  unfold read Context.readX
  cases reg.slot? with
  | none =>
    refine Runs.congr inferInstance fun v => ?_
    cases ty <;> rfl
  | some n =>
    refine Runs.congr inferInstance fun v => ?_
    have hcut : ∀ x : UInt64, (Ty.i64.cut x).setWidth ty.bits = x.toBitVec.setWidth ty.bits :=
      fun x => congrArg (·.setWidth ty.bits) (BitVec.setWidth_eq x.toBitVec)
    simp only [gprType, seen, Ty.and_mask, resized_extend, hcut, eq_comm (b := ty)]
    rfl

instance runs_write (reg : Reg) {v : Value} {ty : Ty} {f : Context → UInt64}
    [hv : Tells v ty f known] :
    Runs (contextHost answer) .a64 known (write reg v) c (c.writeX reg (ty.cut (seen c f)))
      fun _ => [] := by
  unfold write Context.writeX
  cases reg.slot? with
  | none => infer_instance
  | some n =>
    refine Runs.world_eq inferInstance ?_
    exact congrArg (c.setGpr n) (resized_i64 _)

instance runs_compareOperand (operand : CompareOperand) (ty : Ty) :
    Runs (contextHost answer) .a64 known (compareOperand operand ty) c c fun v => [⟨v, ty, fun d =>
        ty.extend (operand.value (if ty = .i64 then d else c) ty.bits)⟩] := by
  cases operand with
  | imm value =>
    change Runs (contextHost answer) .a64 known (const value.toUInt64 ty) c c _
    refine Runs.congr inferInstance fun v => ?_
    simp only [Ty.and_mask, CompareOperand.value]
    exact congrArg (fun x => [(⟨v, ty, fun _ => ty.extend x⟩ : Fact)]) (Ty.cut_ofNat value)
  | reg rm => exact inferInstanceAs (Runs (contextHost answer) .a64 known (read rm ty) c c _)

/-! ### Conditional comparisons -/

/-- The flags after a conditional comparison. A flag on which the comparison is conditional decides
with its new value on the flags written after it. -/
def lateFlags (cond : Cond) (taken : Bool) (compared otherwise : Nzcv) : Nzcv :=
  let pick (t : Bool) : Nzcv := if t then compared else otherwise
  let first := pick taken
  match cond with
  | .eq => { first with c := (pick first.z).c, v := (pick first.z).v }
  | .mi => { pick first.n with n := first.n }
  | .cs => { first with v := (pick first.c).v }
  | _ => first

/-- Write flags one after another, each with the value that `f` then picks. -/
def writeLate (f : Context → UInt64) : List (Flag × Bool × Bool) → Context → Context
  | [], c => c
  | (g, b, other) :: rest, c => writeLate f rest (c.put (.register (.flag g))
      (IR.Instruction.select.pureValue .i32 .i32 (f c) (Ty.i32.extend (flagWord b))
        (other.toUInt64 &&& Ty.i32.mask)))

theorem writeLate_eq (hc : c.FlagsNormal) {cond : Cond} {f : Context → UInt64}
    (hf : ∀ d, (if (condFlag? cond).isSome then d else c).FlagsNormal → f d = Ty.i32.extend
      (flagWord ((if (condFlag? cond).isSome then d else c).flags.holds cond)))
    (compared otherwise : Nzcv) :
    writeLate f [(.n, compared.n, otherwise.n), (.z, compared.z, otherwise.z),
      (.c, compared.c, otherwise.c), (.v, compared.v, otherwise.v)] c =
        c.setFlags (lateFlags cond (c.flags.holds cond) compared otherwise) := by
  -- Late, the condition is that of the flags written so far.
  let pick (flags : Nzcv) (b other : Bool) : Bool :=
    if (if (condFlag? cond).isSome then flags else c.flags).holds cond then b else other
  have hstep : ∀ {d : Context} (g : Flag) (b other : Bool) (rest : List (Flag × Bool × Bool)),
      d.FlagsNormal → writeLate f ((g, b, other) :: rest) d =
        writeLate f rest (d.setFlag g (pick d.flags b other).toUInt32) := by
    intro d g b other rest hd
    rw [writeLate, hf d (by split <;> assumption), IR.pureValue_select, apply_ite Context.flags]
    dsimp only [pick]
    generalize Nzcv.holds _ cond = t
    cases t <;> cases b <;> cases other <;> rfl
  rw [hstep _ _ _ _ hc, hstep _ _ _ _ (hc.setFlag _ _),
    hstep _ _ _ _ ((hc.setFlag _ _).setFlag _ _),
    hstep _ _ _ _ (((hc.setFlag _ _).setFlag _ _).setFlag _ _)]
  simp only [Context.flags_setFlag]
  obtain ⟨n, hn⟩ : ∃ n, pick c.flags compared.n otherwise.n = n := ⟨_, rfl⟩
  obtain ⟨z, hz⟩ : ∃ z, pick (c.flags.set .n n) compared.z otherwise.z = z := ⟨_, rfl⟩
  obtain ⟨t, ht⟩ : ∃ t, pick ((c.flags.set .n n).set .z z) compared.c otherwise.c = t := ⟨_, rfl⟩
  obtain ⟨v, hv⟩ : ∃ v, pick (((c.flags.set .n n).set .z z).set .c t) compared.v otherwise.v = v :=
    ⟨_, rfl⟩
  have hlate : lateFlags cond (c.flags.holds cond) compared otherwise = ⟨n, z, t, v⟩ := by
    subst hv ht hz hn
    have hpick : ∀ t : Bool, (if t then compared else otherwise) =
        ⟨if t then compared.n else otherwise.n, if t then compared.z else otherwise.z,
          if t then compared.c else otherwise.c, if t then compared.v else otherwise.v⟩ := by
      intro t
      cases t <;> rfl
    cases cond <;> simp only [lateFlags, hpick] <;> rfl
  rw [hlate, hn, hz, ht, hv]
  rfl

theorem runs_condCompare (hc : c.FlagsNormal) (wide negative : Bool) (rn : Reg)
    (operand : CompareOperand) (nzcv : Nat) (cond : Cond) :
    Runs (contextHost answer) .a64 known (condCompare wide negative rn operand nzcv cond) c
      (c.setFlags (lateFlags cond (c.flags.holds cond) (comparison c wide negative rn operand)
        (.ofBits nzcv))) fun _ => [] := by
  obtain ⟨f, hrun, hf⟩ := runs_condition (contextHost answer) .a64 cond c
  have hcarry : ∀ known c, Carry (plainCarry !negative) (!negative) known c := fun _ _ => ⟨.inl rfl⟩
  unfold condCompare
  refine Runs.world_eq inferInstance ?_
  have hcompared : (Guest.addWithCarry (c.readX (width wide).bits rn)
      (if !negative then ~~~operand.value c (width wide).bits
        else operand.value c (width wide).bits) !negative).2 =
        comparison c wide negative rn operand := by
    cases wide <;> cases negative <;> rfl
  simp only [seen, contextHost, id, Ty.cut_extend, ite_self, hcompared] at hf ⊢
  exact writeLate_eq hc hf (comparison c wide negative rn operand) (.ofBits nzcv)

/-- A conditional comparison leaves the registers alone and sets the flags, but one that depends on
Z, N or C alone lets the new value of that flag decide on the flags after it. -/
theorem condCompare_sets_flags {wide negative : Bool} {rn : Reg} {operand : CompareOperand}
    {nzcv : Nat} {cond : Cond}
    (hop : op.instr = .a64 (.condCompare wide negative rn operand nzcv cond))
    (hc : c.FlagsNormal) :
    Executes .a64 op c (.dispatch op.next) (c.setFlags (lateFlags cond (c.flags.holds cond)
      (comparison c wide negative rn operand) (.ofBits nzcv))) :=
  executes hop (outcome_of_runs fun _ => runs_condCompare hc wide negative rn operand nzcv cond)

theorem flagsNormal_zero : Context.zero.FlagsNormal := by
  intro f
  cases f <;> exact .inl rfl

/-- `ccmp x0, x1, #3, ne` -/
theorem condCompare_sets_flags_ne :
    Executes .a64 (Opcode.decode .a64 0x1000 0xfa411003) Context.zero (.dispatch 0x1004)
      (Context.zero.setFlags ⟨false, true, true, false⟩) := by
  have hop : (Opcode.decode .a64 0x1000 0xfa411003).instr =
      .a64 (.condCompare true false (.x 0) (.reg (.x 1)) 3 .ne) := rfl
  have hflags : lateFlags .ne (Context.zero.flags.holds .ne)
      (comparison Context.zero true false (.x 0) (.reg (.x 1))) (.ofBits 3) =
        ⟨false, true, true, false⟩ := by decide
  rw [← hflags]
  exact condCompare_sets_flags hop flagsNormal_zero

/-- After `ccmp x0, x1, #3, eq` on equal flags, with 0 and 1 in the registers, C and V are those of
the immediate, though the comparison was made. -/
theorem condCompare_eq_mixes_flags :
    let c := (Context.zero.setGpr 1 1).setFlag .z 1
    c.FlagsNormal ∧ c.flags.holds .eq = true ∧
      ¬Executes .a64 (Opcode.decode .a64 0x1000 0xfa410003) c (.dispatch 0x1004)
        (c.setFlags (comparison c true false (.x 0) (.reg (.x 1)))) := by
  intro c
  have hc : c.FlagsNormal := by
    intro f
    cases f <;> decide
  refine ⟨hc, rfl, fun h => ?_⟩
  have hlate : Executes .a64 (Opcode.decode .a64 0x1000 0xfa410003) c _ _ :=
    executes rfl (outcome_of_runs fun _ =>
      runs_condCompare hc true false (.x 0) (.reg (.x 1)) 3 .eq)
  have hflag := congrArg (fun c => Context.flag c .v) (h.unique hlate).2
  revert hflag
  decide

end A64

/-! ### Branches to registers -/

theorem gpr_setGpr (c : Context) {m n : Nat} (hm : m < 32) (hn : n < 32) (v : UInt64) :
    (c.setGpr m v).gpr n = if m = n then v else c.gpr n := by
  have hslot : ∀ {k : Nat}, k < 32 → (Context.slot k).val = k := Nat.mod_eq_of_lt
  split
  next heq =>
    subst heq
    exact Vector.getElem_set_self ..
  next hne =>
    refine Vector.getElem_set_ne (Context.slot m).isLt (Context.slot n).isLt ?_
    rwa [hslot hm, hslot hn]

namespace A64

open Guest.A64

theorem readX_setLink (c : Context) (next : UInt64) (rn : Reg) :
    (c.setGpr 30 next).readX 64 rn = if rn = .x 30 then next.toBitVec else c.readX 64 rn := by
  have hgpr : ∀ {n : Nat}, n < 32 → (c.setGpr 30 next).gpr n = if 30 = n then next else c.gpr n :=
    fun hn => gpr_setGpr c (by decide) hn next
  cases rn with
  | x n =>
    have hn : 30 = n.val ↔ Reg.x n = .x 30 := by
      rw [Reg.x.injEq, Fin.ext_iff]
      exact eq_comm
    simp only [Context.readX, Reg.slot?, hgpr (Nat.lt_succ_of_lt n.isLt), hn]
    split
    · exact BitVec.setWidth_eq _
    · rfl
  | sp => exact congrArg (fun v : UInt64 => v.toBitVec.setWidth 64) (hgpr (by decide))
  | zr => rfl

theorem outcome_branchRegister (kind : BranchKind) (rn : Reg) :
    Outcome .a64 (lift op (.branchRegister kind rn)) c
      (some (.dispatch (if kind = .blr ∧ rn = .x 30 then op.next else ⟨c.readX 64 rn⟩)))
      (if kind = .blr then c.setGpr 30 op.next else c) := by
  refine outcome_of_ends fun answer => ?_
  dsimp only [lift, writeLink]
  have hnext : op.next &&& Ty.i64.mask = op.next := by
    rw [Ty.and_mask, ← resized_i64]
    rfl
  have hlink : (if decide (kind = .blr) then c.setGpr 30 (op.next &&& Ty.i64.mask) else c) =
      if kind = .blr then c.setGpr 30 op.next else c := by
    rw [hnext]
    simp only [decide_eq_true_eq]
  refine Ends.congr inferInstance (congrArg IR.Leave.dispatch ?_) hlink
  change Ty.i64.extend
    ((if decide (kind = .blr) then c.setGpr 30 (op.next &&& Ty.i64.mask) else c).readX 64 rn) = _
  rw [hlink]
  refine (congrArg UInt64.ofBitVec (BitVec.setWidth_eq _)).trans ?_
  by_cases hkind : kind = .blr
  · simp only [hkind, if_true, true_and, readX_setLink]
    split <;> rfl
  · simp only [hkind, if_false, false_and]

end A64

namespace A32

open Guest.A32

instance runs_read (reg : Reg) (address : UInt64) :
    Runs (contextHost answer) .a32 known (read reg address) c c fun v => [⟨v, .i32, fun d =>
      (if reg = pc then address + 8 else d.gpr reg) &&& Ty.i32.mask⟩] := by
  unfold read
  split
  · infer_instance
  · exact inferInstanceAs (Runs (contextHost answer) .a32 known (gpr reg) c c _)

theorem outcome_branchExchange (link : Bool) (rm : Reg) :
    Outcome .a32 (lift op (.branchExchange link rm)) c
      (some (.dispatch ((if link ∧ rm = lr then op.next else if rm = pc then op.address + 8
        else c.gpr rm) &&& 0xfffffffe)))
      (if link then c.setGpr 14 (op.next &&& 0xffffffff) else c) := by
  refine outcome_of_ends fun answer => ?_
  dsimp only [lift, writeLink, dispatchMasked]
  refine Ends.congr inferInstance (congrArg IR.Leave.dispatch ?_) rfl
  have htarget : ∀ x : UInt64, resized .i32 .i64 (IR.Instruction.and.pureValue .i32 .i32
      (x &&& Ty.i32.mask) (exchangeMask &&& Ty.i32.mask) 0) = x &&& 0xfffffffe := by
    intro x
    change ((((x &&& Ty.i32.mask) &&& (exchangeMask &&& Ty.i32.mask)) &&& Ty.i32.mask) &&&
      Ty.i32.mask) &&& Ty.i64.mask = _
    simp only [UInt64.and_assoc]
    rfl
  refine (htarget _).trans ?_
  cases link with
  | false => simp [contextHost]
  | true =>
    have hgpr : (c.setGpr 14 (op.next &&& 0xffffffff)).gpr rm = _ :=
      gpr_setGpr c (by decide) (rm.isLt.trans (by decide)) _
    have hlr : 14 = rm.val ↔ rm = lr := by
      rw [Fin.ext_iff]
      exact eq_comm
    change (if rm = pc then _ else (c.setGpr 14 (op.next &&& 0xffffffff)).gpr rm) &&& _ = _
    simp only [true_and, hgpr, hlr]
    by_cases heq : rm = lr
    · rw [if_pos heq, if_pos heq, if_neg (heq ▸ by decide), UInt64.and_assoc]
      rfl
    · rw [if_neg heq, if_neg heq]

end A32

/-- Branches go where the register pointed before, except that a branch to the link register which
sets the link register goes on at the next instruction. -/
theorem register_branch_targets (op : Opcode) (c : Context) :
    (∀ kind rn, op.instr = .a64 (.branchRegister kind rn) →
      Executes .a64 op c
        (.dispatch (if kind = .blr ∧ rn = .x 30 then op.next else ⟨c.readX 64 rn⟩))
        (if kind = .blr then c.setGpr 30 op.next else c)) ∧
    ∀ cond link rm, op.instr = .a32 ⟨cond, .branchExchange link rm⟩ →
      cond.isAlways = true ∨ c.FlagsNormal →
      Executes .a32 op c
        (.dispatch (if c.flags.holds cond then (if link ∧ rm = Guest.A32.lr then op.next
          else if rm = Guest.A32.pc then op.address + 8 else c.gpr rm) &&& 0xfffffffe else op.next))
        (if c.flags.holds cond ∧ link then c.setGpr 14 (op.next &&& 0xffffffff) else c) := by
  refine ⟨fun kind rn hop => A64.executes hop (A64.outcome_branchRegister kind rn),
    fun cond link rm hop hc => ?_⟩
  have hexecutes := A32.executes hop hc (A32.outcome_branchExchange link rm)
  cases hholds : c.flags.holds cond <;> simpa [hholds] using hexecutes

/-- `blr x1`, `bx lr` and `blx r1` at 0x1000 -/
theorem register_branch_targets_calls :
    Executes .a64 (Opcode.decode .a64 0x1000 0xd63f0020) (Context.zero.setGpr 1 0x2000)
        (.dispatch 0x2000) ((Context.zero.setGpr 1 0x2000).setGpr 30 0x1004) ∧
      Executes .a32 (Opcode.decode .a32 0x1000 0xe12fff1e) (Context.zero.setGpr 14 0x2001)
        (.dispatch 0x2000) (Context.zero.setGpr 14 0x2001) ∧
      Executes .a32 (Opcode.decode .a32 0x1000 0xe12fff31) (Context.zero.setGpr 1 0x2000)
        (.dispatch 0x2000) ((Context.zero.setGpr 1 0x2000).setGpr 14 0x1004) :=
  ⟨(register_branch_targets _ _).1 .blr (.x 1) rfl,
    (register_branch_targets _ _).2 .al false 14 rfl (.inl rfl),
    (register_branch_targets _ _).2 .al true 1 rfl (.inl rfl)⟩

/-- `blr x30` at 0x1000 does not go where the link register pointed. -/
theorem blr_link_goes_on :
    let c := Context.zero.setGpr 30 0x2000
    c.readX 64 (.x 30) = 0x2000#64 ∧
      ¬Executes .a64 (Opcode.decode .a64 0x1000 0xd63f03c0) c (.dispatch 0x2000)
        (c.setGpr 30 0x1004) := by
  intro c
  refine ⟨rfl, fun h => ?_⟩
  have hlate : Executes .a64 (Opcode.decode .a64 0x1000 0xd63f03c0) c _ _ :=
    A64.executes rfl (A64.outcome_branchRegister .blr (.x 30))
  have htarget := (h.unique hlate).1
  revert htarget
  decide

end Dynarec.Lift
