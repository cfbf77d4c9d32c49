import Dynarec.Proofs.Host.Operations

/-!
# Terminators

The code of a terminator goes where the terminator leads: on to the block that follows, to the label
of another block, or out of the function. On the way out the guest address is in the context and the
frame is given up. A dispatch first looks at the interrupt flag and the synchronization counter, and
returns to the caller if the host has to be asked.
-/

set_option synthInstance.maxSize 10000

namespace Dynarec.Host

open IR.Eval Asm Gp

/-- What code does that leaves a function: how it departs, what is in the accumulator then, and the
world. -/
inductive Left {ω : Type} (host : Surroundings ω) (w : ω) :
    IR.Leave → Departure → UInt64 → ω → Prop
  | exit (pc : UInt64) : Left host w (.exit pc) .returned pc (host.storePc pc w)
  /-- An interrupt was requested. -/
  | interrupted (pc a b : UInt64) (h : (host.context (host.storePc pc w)).interrupt ≠ 0) :
      Left host w (.dispatch pc) .returned
        (host.context (host.call .checkSynchronization a b (host.storePc pc w)).2).pc
        (host.call .checkSynchronization a b (host.storePc pc w)).2
  /-- The synchronization counter has run out. -/
  | ranOut (pc a b : UInt64) (h : (host.context (host.storePc pc w)).interrupt = 0)
      (hcount : (host.context (host.storePc pc w)).syncCounter ≤ 1) :
      Left host w (.dispatch pc) .returned
        (host.context (host.call .checkSynchronization a b
          (host.countDown (host.storePc pc w))).2).pc
        (host.call .checkSynchronization a b (host.countDown (host.storePc pc w))).2
  /-- The address has no place in the table. -/
  | unplaced (pc : UInt64) (h : (host.context (host.storePc pc w)).interrupt = 0)
      (hcount : ¬(host.context (host.storePc pc w)).syncCounter ≤ 1) :
      Left host w (.dispatch pc) .returned pc (host.countDown (host.storePc pc w))
  | through (pc target acc : UInt64) (h : (host.context (host.storePc pc w)).interrupt = 0)
      (hcount : ¬(host.context (host.storePc pc w)).syncCounter ≤ 1) :
      Left host w (.dispatch pc) (.dispatched target) acc (host.countDown (host.storePc pc w))

namespace Codegen

open IR (BlockId Function Instruction LocalSet OperandId Operation Ty)

variable {ω : Type} {host : Surroundings ω} {code : Assembler} {env : Env} {s t : State}
  {c c' : Cpu} {w : ω} {known : Nat → Prop} {base : UInt64} {v : Value} {pc : UInt64}
  {b following otherwise : BlockId} {next : Option BlockId}

/-! ### Leaving -/

def Env.frameBytes (env : Env) : UInt64 := UInt64.ofInt (Int32.ofNat env.frame.size).toInt

theorem yields_frameSize :
    Yields env frameSize s fun n => UInt64.ofInt n.toInt = env.frameBytes := by
  rintro n t ⟨⟩
  exact ⟨rfl, rfl⟩

theorem passes_leaveFrame : Passes host code env leaveFrame s c w fun _ t c' w' =>
      w' = w ∧ Sets sp (c.get sp + env.frameBytes) s c t c' := by
  refine yields_frameSize.bind fun n hn => ?_
  refine passes_emit (b := s.asm.push (.aluImm .add .i64 sp n)) rfl rfl rfl ⟨rfl, ?_⟩
  refine ⟨keeps_asm s _, ?_, fun q hq => Cpu.get_set_ne _ _ hq, rfl⟩
  refine (Cpu.get_set_self ..).trans ?_
  rw [IR.Ty.and_i64_mask, ← hn]

/-- Give up the frame and return. -/
theorem leads_return :
    Leads host code env (do leaveFrame; asm ret) s (.here s.asm.size c w) fun _ t q =>
      ∃ i c', i < t.asm.size ∧ q = .gone i .returned c' w ∧
        c'.get sp = c.get sp + env.frameBytes ∧ c'.get ax = c.get ax := by
  refine passes_leaveFrame.bind_leads ?_
  rintro _ t c' w' ⟨rfl, hset⟩
  exact leads_emit (b := t.asm.push .ret) rfl rfl rfl fun hitem =>
    ⟨_, .leave hitem rfl, _, c', by simp, rfl, hset.value, hset.other _ (by decide)⟩

theorem passes_storePc (hv : Holds c v pc) : Passes host code env (storePc v) s c w fun _ t c' w' =>
      w' = host.storePc pc w ∧ Sets ax pc s c t c' := by
  refine (passes_movValue (d := ax) rfl hv).bind ?_
  rintro _ t c' w' ⟨rfl, hset⟩
  have hstep : Exec.step host c' w' (.store .b64 contextGp (contextDisp Context.pcOffset) ax) =
      .next c' (host.storePc pc w') := by
    simp only [Exec.step, hset.value]
    rfl
  refine passes_emit (run_store t.asm .b64 _ gp?_contextReg rfl) rfl hstep ⟨rfl, ?_⟩
  exact ⟨hset.keeps.trans (keeps_asm t _), hset.value, hset.other, hset.stack⟩

/-! ### Dispatch -/

/-- A run looks at the interrupt flag, then at the counter, and goes to `slow` from either. -/
theorem leads_checkHost (slow : Label) :
    Leads host code env (checkHost slow) s (.here s.asm.size c w) fun _ t q =>
      ∃ c', c'.regs = c.regs ∧
        if (host.context w).interrupt ≠ 0 then ∃ i < t.asm.size, q = .bound i slow c' w
        else if (host.context w).syncCounter ≤ 1 then
          ∃ i < t.asm.size, q = .bound i slow c' (host.countDown w)
        else q = .here t.asm.size c' (host.countDown w) := by
  obtain ⟨flags, hstep, hne⟩ := Exec.step_checkInterrupt host gp?_contextReg c w
  have hcheck : Passes host code env
      (asm (cmpMemImm .b32 contextReg (contextDisp Context.interruptOffset) 0)) s c w
      fun _ _ c' w' => c' = { c with flags } ∧ w' = w :=
    passes_emit (b := s.asm.push (.cmpMemImm .i32 contextGp _ 0)) rfl rfl hstep ⟨rfl, rfl⟩
  refine hcheck.bind_leads ?_
  rintro _ t c₁ w₁ ⟨rfl, rfl⟩
  refine Leads.bind (leads_jcc _ _) ?_
  rintro _ u q ⟨-, -, hlt, rfl⟩
  rw [hne]
  by_cases hint : (host.context w₁).interrupt = 0
  · rw [hint]
    obtain ⟨flags', hstep', hle⟩ := Exec.step_countDown host gp?_contextReg { c with flags } w₁
    have hcount : Passes host code env
        (asm (subMemImm .b32 contextReg (contextDisp Context.syncCounterOffset) 1)) u
        { c with flags } w₁ fun _ _ c' w' =>
          c' = { c with flags := flags' } ∧ w' = host.countDown w₁ :=
      passes_emit (b := u.asm.push (.subMemImm .i32 contextGp _ 1)) rfl rfl hstep' ⟨rfl, rfl⟩
    refine hcount.bind_leads ?_
    rintro _ v c₂ w₂ ⟨rfl, rfl⟩
    refine (leads_jcc _ _).mono ?_
    rintro _ z q ⟨-, -, hlt', rfl⟩
    refine ⟨{ c with flags := flags' }, rfl, ?_⟩
    simp only [hle, ne_eq, not_true, if_false, decide_eq_true_eq]
    split
    · exact ⟨_, hlt', rfl⟩
    · rfl
  · rw [bne_iff_ne.mpr hint]
    refine Leads.bind (leads_idle_asm _ _) ?_
    rintro _ v q ⟨rfl, hin, -⟩
    refine (leads_idle_asm _ _).mono ?_
    rintro _ z q ⟨rfl, hin', -⟩
    refine ⟨{ c with flags }, rfl, ?_⟩
    rw [if_pos hint]
    exact ⟨_, hlt.trans_le (hin.trans hin').size_le, rfl⟩

theorem passes_shift (op : ShiftOp) (ty : Ty) {r : Reg} {i : Gp} (hi : r.gp? = some i) (n : Nat) :
    Passes host code env (asm (Asm.shift op ty r n)) s c w fun _ _ c' w' =>
      w' = w ∧ ∀ q, q ≠ i → c'.get q = c.get q := by
  by_cases hn : n < 256
  · have hrun : ((Asm.shift op ty r n).run s.asm) =
        (.ok (), s.asm.push (.shift op ty i n.toUInt8)) := by
      simp only [Asm.shift, gp, hi, if_pos hn]
      rfl
    exact passes_emit hrun rfl rfl ⟨rfl, fun q hq => Cpu.get_set_ne _ _ hq⟩
  · have hrun : ((Asm.shift op ty r n).run s.asm) = (.error .assembly, s.asm) := by
      simp only [Asm.shift, gp, hi, if_neg hn]
      rfl
    refine leads_asm fun _ b heq _ => ?_
    rw [hrun] at heq
    cases heq

def SameButScratch (c c' : Cpu) : Prop := ∀ q, q ≠ cx → q ≠ dx → c'.get q = c.get q

theorem passes_tableStep (level : Code.Level) :
    Passes host code env (tableStep level) s c w fun _ _ c' w' => w' = w ∧ SameButScratch c c' := by
  refine (passes_mov .i64 rfl rfl).bind ?_
  rintro _ t c₁ w₁ ⟨rfl, hmov⟩
  refine (passes_shift .shr .i64 rfl _).bind ?_
  rintro _ u c₂ w₂ ⟨rfl, hshift⟩
  have hand : Passes host code env
      (asm (Asm.aluImm .and .i32 .rcx (Int32.ofNat level.mask))) u c₂ w₂
      fun _ _ c' w' => w' = w₂ ∧ ∀ q, q ≠ cx → c'.get q = c₂.get q :=
    passes_emit (b := u.asm.push (.aluImm .and .i32 cx _)) rfl rfl rfl
      ⟨rfl, fun q hq => Cpu.get_set_ne _ _ hq⟩
  refine hand.bind ?_
  rintro _ v c₃ w₃ ⟨rfl, hcut⟩
  refine passes_emit (b := v.asm.push (.loadIndexed dx dx cx)) rfl rfl rfl
    ⟨rfl, fun q hcx hdx => ?_⟩
  rw [Cpu.get_set_ne _ _ hdx, hcut q hcx, hshift q hcx, hmov.other q hcx]

theorem passes_tableSteps (levels : List Code.Level) :
    Passes host code env (levels.forM tableStep) s c w fun _ _ c' w' =>
      w' = w ∧ SameButScratch c c' := by
  induction levels generalizing s c with
  | nil => exact passes_pure ⟨rfl, fun _ _ _ => rfl⟩
  | cons level rest ih =>
    refine (passes_tableStep level).bind ?_
    rintro _ t c₁ w₁ ⟨rfl, hsame⟩
    refine ih.mono ?_
    rintro _ _ c₂ w₂ ⟨rfl, hsame'⟩
    exact ⟨rfl, fun q hcx hdx => (hsame' q hcx hdx).trans (hsame q hcx hdx)⟩

/-- Control has left with the frame given up, by a return for `pc` or through the table. -/
def GoneFor (env : Env) (c : Cpu) (w : ω) (pc : UInt64) (t : State) (q : Exec.Status ω) : Prop :=
  ∃ i how c', i < t.asm.size ∧ q = .gone i how c' w ∧ c'.get sp = c.get sp + env.frameBytes ∧
    (how = .returned ∧ c'.get ax = pc ∨ ∃ target, how = .dispatched target)

theorem leads_tableJump (pc : UInt64) (hax : c.get ax = pc) :
    Leads host code env (tableJump pc) s (.here s.asm.size c w) fun _ t q =>
      GoneFor env c w pc t q := by
  refine leads_get_bind ?_
  obtain ⟨_ | slot, table⟩ := s.table.ensure pc
  · refine leads_modify_bind (leads_return.mono fun _ _ q hq => ?_)
    obtain ⟨i, c', hi, rfl, hsp, hax'⟩ := hq
    exact ⟨i, _, c', hi, rfl, hsp, .inl ⟨rfl, hax'.trans hax⟩⟩
  · refine leads_modify_bind ?_
    refine (passes_movImm rfl (slotAddress pc)).bind_leads ?_
    rintro _ t c₁ w₁ ⟨rfl, hmov⟩
    refine passes_leaveFrame.bind_leads ?_
    rintro _ u c₂ w₂ ⟨rfl, hleave⟩
    refine leads_emit (b := u.asm.push (.jmpMem ax)) rfl rfl rfl fun hitem => ?_
    refine ⟨_, .leave hitem rfl, _, _, c₂, by simp, rfl, ?_, .inr ⟨_, rfl⟩⟩
    rw [hleave.value, hmov.other _ (by decide)]

theorem leads_tableWalk (hax : c.get ax = pc) :
    Leads host code env tableWalk s (.here s.asm.size c w) fun _ t q => GoneFor env c w pc t q := by
  refine leads_get_bind ?_
  refine passes_newLabel.bind_leads ?_
  rintro bypass t c₁ w₁ ⟨rfl, rfl, -, hbypass⟩
  refine (passes_movImm rfl _).grow.bind_leads ?_
  rintro _ t₁ c₂ w₂ ⟨hin₁, rfl, hcx⟩
  have htest : Passes host code env (asm (Asm.alu .test .i64 .rax .rcx)) t₁ c₂ w₂
      fun _ _ c' w' => w' = w₂ ∧ ∀ q, c'.get q = c₂.get q :=
    passes_emit (run_alu t₁.asm .test .i64 rfl rfl) rfl rfl ⟨rfl, fun _ => rfl⟩
  refine htest.grow.bind_leads ?_
  rintro _ t₂ c₃ w₃ ⟨hin₂, rfl, hsame⟩
  refine Leads.bind (leads_jcc _ _) ?_
  rintro _ t₃ q ⟨hin₃, -, hlt, rfl⟩
  have hget : ∀ q, q ≠ cx → c₃.get q = c₁.get q := fun q hq => (hsame q).trans (hcx.other q hq)
  split
  · refine Leads.bind (leads_idle _) ?_
    rintro _ u q ⟨rfl, hin₄⟩
    refine Leads.bind (leads_idle _) ?_
    rintro _ u₁ q ⟨rfl, hin₅⟩
    refine Leads.bind (leads_idle _) ?_
    rintro _ u₂ q ⟨rfl, hin₆⟩
    refine Leads.bind (leads_idle _) ?_
    rintro _ u₃ q ⟨rfl, hin₇⟩
    have hskipped := ((hin₄.trans hin₅).trans hin₆).trans hin₇
    have hlabels := (((hin₁.trans hin₂).trans hin₃).trans hskipped).labels_size
    refine Leads.bind (leads_place (hbypass.trans_le hlabels)
      (hlt.trans_le hskipped.size_le)) ?_
    rintro _ u₄ q ⟨-, rfl⟩
    refine leads_return.mono ?_
    rintro _ _ q ⟨i, c', hi, rfl, hsp, hax'⟩
    refine ⟨i, _, c', hi, rfl, ?_, .inl ⟨rfl, ?_⟩⟩
    · rw [hsp, hget _ (by decide)]
    · rw [hax', hget _ (by decide), hax]
  · refine (passes_movImm rfl _).bind_leads ?_
    rintro _ u c₄ w₄ ⟨rfl, hdx⟩
    refine (passes_tableSteps _).bind_leads ?_
    rintro _ u₁ c₅ w₅ ⟨rfl, hsteps⟩
    refine passes_leaveFrame.bind_leads ?_
    rintro _ u₂ c₆ w₆ ⟨rfl, hleave⟩
    have hjump : Leads host code env (asm (jmpReg .rdx)) u₂ (.here u₂.asm.size c₆ w₆) fun _ t q =>
        u₂.asm.size < t.asm.size ∧ q = .gone u₂.asm.size (.dispatched (c₆.get dx)) c₆ w₆ :=
      leads_emit (b := u₂.asm.push (.jmpReg dx)) rfl rfl rfl fun hitem =>
        ⟨_, .leave hitem rfl, by simp, rfl⟩
    refine Leads.bind hjump ?_
    rintro _ u₃ q ⟨hlt', rfl⟩
    refine (leads_idle _).mono ?_
    rintro _ _ q ⟨rfl, hin⟩
    refine ⟨_, _, c₆, hlt'.trans_le hin.size_le, rfl, ?_, .inr ⟨_, rfl⟩⟩
    rw [hleave.value, hsteps _ (by decide) (by decide), hdx.other _ (by decide), hget _ (by decide)]

theorem leads_lookUp (hv : ∀ x, v = .imm x → x = pc) (hax : c.get ax = pc) :
    Leads host code env (lookUp v) s (.here s.asm.size c w) fun _ t q =>
      GoneFor env c w pc t q := by
  cases v with
  | imm x =>
    obtain rfl := hv x rfl
    exact leads_tableJump x hax
  | reg r => exact leads_tableWalk hax

/-- The host is asked, and control returns for the guest address that is in the context then. -/
theorem leads_synchronize : Leads host code env synchronize s (.here s.asm.size c w) fun _ t q =>
      ∃ i c' a b, i < t.asm.size ∧ q = .gone i .returned c'
        (host.call .checkSynchronization a b w).2 ∧ c'.get sp = c.get sp + env.frameBytes ∧
        c'.get ax = (host.context (host.call .checkSynchronization a b w).2).pc := by
  refine (passes_callAddress .checkSynchronization rfl rfl).bind_leads ?_
  rintro _ t c₁ w₁ ⟨-, hret⟩
  have hload := Exec.load?_field host gp?_contextReg c₁ w₁
    (show Width.ofBytes? (min IR.Field.pc.size (Ty.i64.bits / 8)) = some .b64 from rfl)
  rw [IR.Ty.and_i64_mask] at hload
  have hstep : Exec.step host c₁ w₁ (.load .b64 ax contextGp (contextDisp Context.pcOffset)) =
      .next (c₁.set ax (host.context w₁).pc) w₁ := by
    have hdisp : contextDisp Context.pcOffset = contextDisp IR.Field.pc.offset := rfl
    simp only [Exec.step, hdisp, hload]
    rfl
  have hpc : Passes host code env (asm (load .b64 .rax contextReg (contextDisp Context.pcOffset)))
      t c₁ w₁ fun _ _ c' w' => w' = w₁ ∧ c' = c₁.set ax (host.context w₁).pc :=
    passes_emit (b := t.asm.push (.load .b64 ax contextGp _)) rfl rfl hstep ⟨rfl, rfl⟩
  refine hpc.bind_leads ?_
  rintro _ u c₂ w₂ ⟨rfl, rfl⟩
  refine leads_return.mono ?_
  rintro _ _ q ⟨i, c', hi, rfl, hsp, hax⟩
  have hkept : c₁.get sp = c.get sp := hret.other _ (by unfold clobbered; decide)
  rw [Cpu.get_set_ne _ _ (by decide), hkept] at hsp
  rw [Cpu.get_set_self] at hax
  have hworld := hret.world
  subst hworld
  exact ⟨i, c', _, _, hi, rfl, hsp, hax⟩

/-- Control has left the function as `how` says. -/
def GoneAs (host : Surroundings ω) (env : Env) (base : UInt64) (w : ω) (how : IR.Leave) (t : State)
    (q : Exec.Status ω) : Prop :=
  ∃ i way c' w', i < t.asm.size ∧ q = .gone i way c' w' ∧ c'.get sp = base + env.frameBytes ∧
    Left host w how way (c'.get ax) w'

/-- The slow path: what lies between is passed over. -/
theorem leads_slow {slow : Label} {i : Nat} {w₀ : ω} {how : IR.Leave}
    (hslow : slow.index < s.asm.labels.size) (hi : i < s.asm.size) (hsp : c.get sp = base)
    (hleft : ∀ a b, Left host w₀ how .returned
      (host.context (host.call .checkSynchronization a b w).2).pc
      (host.call .checkSynchronization a b w).2) :
    Leads host code env (do lookUp v; asm (place slow); synchronize) s (.bound i slow c w)
      fun _ t q => GoneAs host env base w₀ how t q := by
  refine Leads.bind (leads_idle _) ?_
  rintro _ t q ⟨rfl, hin⟩
  refine Leads.bind (leads_place (hslow.trans_le hin.labels_size)
    (hi.trans_le hin.size_le)) ?_
  rintro _ u q ⟨-, rfl⟩
  refine leads_synchronize.mono ?_
  rintro _ u q ⟨j, c', a, b, hj, rfl, hsp', hax⟩
  refine ⟨j, _, c', _, hj, rfl, by rw [hsp', hsp], ?_⟩
  rw [hax]
  exact hleft a b

variable {native : IR.Native ω} {op : Operation} {frame : IR.Frame}

theorem Starts.leads_dispatch (h : Starts env op frame known base s c) :
    Leads host code env (dispatch op) s (.here s.asm.size c w) fun _ t q =>
      GoneAs host env base w (.dispatch (sourceValue env.func frame op 0)) t q := by
  refine (h.passes_source 0).bind_leads ?_
  rintro v t c₁ w₁ ⟨rfl, ht, -, hv⟩
  refine passes_newLabel.bind_leads ?_
  rintro slow t₁ c₂ w₂ ⟨rfl, rfl, -, hslow⟩
  refine (passes_storePc hv.holds).grow.bind_leads ?_
  rintro _ t₂ c₃ w₃ ⟨hin₁, rfl, hpc⟩
  refine Leads.bind (leads_checkHost slow).grow ?_
  rintro _ t₃ q ⟨hin₂, c₄, hregs, hq⟩
  have hget : ∀ q, c₄.get q = c₃.get q := Cpu.get_congr hregs
  have hsp : c₄.get sp = base := by
    rw [hget, hpc.other _ (by decide), ht.settled.sp]
  have hlabel := hslow.trans_le (hin₁.trans hin₂).labels_size
  split at hq
  next hint =>
    obtain ⟨i, hi, rfl⟩ := hq
    exact leads_slow hlabel hi hsp fun a b => .interrupted _ a b hint
  next hint =>
    have hint := Decidable.not_not.mp hint
    split at hq
    next hcount =>
      obtain ⟨i, hi, rfl⟩ := hq
      exact leads_slow hlabel hi hsp fun a b => .ranOut _ a b hint hcount
    next hcount =>
      subst hq
      have himm : ∀ x, v = .imm x → x = sourceValue env.func frame op 0 := by
        rintro x rfl
        exact hv.holds
      have hax : c₄.get ax = sourceValue env.func frame op 0 := (hget _).trans hpc.value
      refine Leads.bind (leads_lookUp himm hax) ?_
      rintro _ u q ⟨j, how, c', hj, rfl, hsp', hhow⟩
      refine (leads_idle _).mono ?_
      rintro _ z q ⟨rfl, hin⟩
      refine ⟨j, how, c', _, hj.trans_le hin.size_le, rfl, by rw [hsp', hsp], ?_⟩
      rcases hhow with ⟨rfl, hpc'⟩ | ⟨target, rfl⟩
      · rw [hpc']
        exact .unplaced _ hint hcount
      · exact .through _ target _ hint hcount

theorem Starts.leads_exit (h : Starts env op frame known base s c) :
    Leads host code env (exit op) s (.here s.asm.size c w) fun _ t q =>
      GoneAs host env base w (.exit (sourceValue env.func frame op 0)) t q := by
  refine (h.passes_source 0).bind_leads ?_
  rintro v t c₁ w₁ ⟨rfl, ht, -, hv⟩
  refine (passes_storePc hv.holds).bind_leads ?_
  rintro _ t₁ c₂ w₂ ⟨rfl, hpc⟩
  refine leads_return.mono ?_
  rintro _ u q ⟨i, c', hi, rfl, hsp, hax⟩
  refine ⟨i, _, c', _, hi, rfl, ?_, ?_⟩
  · rw [hsp, hpc.other _ (by decide), ht.settled.sp]
  · rw [hax, hpc.value]
    exact .exit _

/-! ### Branches -/

theorem passes_blockLabel (b : Nat) :
    Passes host code env (asm (blockLabel b)) s c w fun l _ c' w' =>
      c' = c ∧ w' = w ∧ code.blockLabels.lookup b = some l := by
  refine leads_asm fun l a heq hin => ?_
  cases heq
  refine ⟨_, .refl _, c, w, ?_, rfl, rfl, hin.blockLabels _ _ (s.asm.lookup_blockLabel b)⟩
  exact congrArg (Exec.Status.here · c w) (s.asm.size_blockLabel b).symm

theorem leads_branch (target : BlockId) (next : Option BlockId) :
    Leads host code env (branch target next) s (.here s.asm.size c w) fun _ t q =>
      if next = some target then q = .here t.asm.size c w
      else ∃ i l, i < t.asm.size ∧ code.blockLabels.lookup target.index = some l ∧
        q = .bound i l c w := by
  unfold branch
  split
  · exact leads_pure rfl
  · refine (passes_blockLabel target.index).bind_leads ?_
    rintro l t c₁ w₁ ⟨rfl, rfl, hl⟩
    exact leads_emit (b := t.asm.push (.jmp l)) rfl rfl rfl fun hitem =>
      ⟨_, .branch hitem rfl (.refl _), _, l, by simp, hl, rfl⟩

structure Handed (env : Env) (b : BlockId) (frame : IR.Frame) (base : UInt64) (c : Cpu) : Prop where
  sp : c.get sp = base
  saved : ∀ l, (env.liveness.after b).contains l = true → readSlot c base l = frame.getD l 0

theorem Starts.handed (h : Starts env op frame known base s c)
    (hlive : ∀ l, (env.liveness.after s.block).contains l = true → known l) :
    Handed env s.block frame base c := by
  refine ⟨h.settled.sp, fun l hl => ?_⟩
  refine h.settled.saved l (hlive l hl) ?_
  by_contra hdirty
  rw [h.settled.dirty_out l (Bool.not_eq_false _ ▸ hdirty)] at hl
  cases hl

def Goes (host : Surroundings ω) (code : Assembler) (env : Env) (b : BlockId) (frame : IR.Frame)
    (base : UInt64) (w : ω) (next : IR.Eval.Next) (t : State) (q : Exec.Status ω) : Prop :=
  match next with
  | .fall => ∃ c', Handed env b frame base c' ∧ q = .here t.asm.size c' w
  | .goto target => ∃ i l c', Handed env b frame base c' ∧ i < t.asm.size ∧
      code.blockLabels.lookup target.index = some l ∧ q = .bound i l c' w
  | .leave how => GoneAs host env base w how t q

theorem Handed.leads_branch (h : Handed env b frame base c) {target : BlockId}
    (hnext : next = some target ↔ target = following) :
    Leads host code env (branch target next) s (.here s.asm.size c w) fun _ t q =>
      Goes host code env b frame base w
        (if target = following then .fall else .goto target) t q := by
  refine (Codegen.leads_branch target next).mono fun _ t q hq => ?_
  simp only [hnext] at hq
  split at hq
  next heq =>
    rw [if_pos heq]
    exact ⟨c, h, hq⟩
  next hne =>
    rw [if_neg hne]
    obtain ⟨i, l, hi, hl, rfl⟩ := hq
    exact ⟨i, l, c, h, hi, hl, rfl⟩

/-- A test of a register with itself says whether its bits in the type are zero. -/
theorem passes_test (ty : Ty) (g : Gp) :
    Passes host code env (asm (Asm.alu .test ty (.gp g.val) (.gp g.val))) s c w fun _ _ c' w' =>
      w' = w ∧ c'.regs = c.regs ∧ c'.stack = c.stack ∧
        c'.flags.holds .ne = (c.get g &&& ty.mask != 0) := by
  refine passes_emit (run_alu s.asm .test ty (Reg.gp?_gp g) (Reg.gp?_gp g)) rfl rfl
    ⟨rfl, rfl, rfl, ?_⟩
  simp only [Exec.alu, Exec.logicFlags, Flags.holds, UInt64.and_self, bne]

/-- A branch on a register goes to the label of its first target unless the value is zero. -/
theorem Handed.leads_branchOn (h : Handed env b frame base c) {x : UInt64} {g : Gp}
    (hg : c.get g = x) (ty : Ty) (then_ : BlockId)
    (hnext : next = some otherwise ↔ otherwise = following) :
    Leads host code env (branchOn ty then_ otherwise next (.reg (.gp g.val))) s
      (.here s.asm.size c w) fun _ t q => Goes host code env b frame base w
        (if x &&& ty.mask != 0 then .goto then_
          else if otherwise = following then .fall else .goto otherwise) t q := by
  refine (passes_test ty g).bind_leads ?_
  rintro _ t c₁ w₁ ⟨rfl, hregs, hstack, hne⟩
  have hhanded : Handed env b frame base c₁ := by
    refine ⟨(Cpu.get_congr hregs _).trans h.sp, fun l hl => ?_⟩
    rw [readSlot, hstack]
    exact h.saved l hl
  refine (passes_blockLabel then_.index).bind_leads ?_
  rintro l u c₂ w₂ ⟨rfl, rfl, hl⟩
  refine Leads.bind (leads_jcc _ _) ?_
  rintro _ v q ⟨-, -, hlt, rfl⟩
  rw [hne, hg]
  split
  next =>
    refine (leads_idle _).mono ?_
    rintro _ z q ⟨rfl, hin⟩
    exact ⟨_, l, c₂, hhanded, hlt.trans_le hin.size_le, hl, rfl⟩
  next => exact hhanded.leads_branch hnext

section

variable (h : Starts env op frame known base s c)
  (hlive : ∀ l, (env.liveness.after s.block).contains l = true → known l)

include h hlive

theorem Starts.leads_branchIf {then_ : BlockId}
    (hinst : op.inst = .branchIf then_ otherwise) (hthen : next = some then_ ↔ then_ = following)
    (hotherwise : next = some otherwise ↔ otherwise = following) :
    Leads host code env (branchIf op then_ otherwise next) s (.here s.asm.size c w) fun _ t q =>
      Goes host code env s.block frame base w (terminate env.func frame op following) t q := by
  refine (yields_sourceType op).bind fun ty hty => ?_
  refine (h.settled.passes_source h.small 0 h.sources).bind_leads ?_
  rintro v t c₁ w₁ ⟨rfl, hset, hsteady, id, hid, hfetch⟩
  have ht : Starts env op frame known base t c₁ := { h with settled := hset }
  have hhanded : Handed env s.block frame base c₁ :=
    hsteady.block ▸ ht.handed (hsteady.block ▸ hlive)
  have hvalue : sourceValue env.func frame op 0 = IR.Eval.operandValue env.func frame id := by
    simp [sourceValue, hid]
  subst hty
  cases v with
  | imm x =>
    obtain rfl : x = IR.Eval.operandValue env.func frame id := hfetch.holds
    have hlocal : ∀ l, (env.func.operand id).kind ≠ .local_ l := by
      intro l hkind
      obtain ⟨r, hr⟩ := hfetch.form.mpr ⟨l, hkind⟩
      cases hr
    have hterm : terminate env.func frame op following =
        (if (if IR.Eval.operandValue env.func frame id != 0 then then_ else otherwise) = following
          then .fall
          else .goto (if IR.Eval.operandValue env.func frame id != 0
            then then_ else otherwise)) := by
      simp only [terminate, hinst, hid, hvalue]
      split
      next l heq => exact absurd (Option.some.inj heq) (hlocal l)
      next => rfl
    rw [hterm]
    refine hhanded.leads_branch ?_
    split
    · exact hthen
    · exact hotherwise
  | reg r =>
    obtain ⟨g, rfl, -, hg⟩ := hfetch.holds
    obtain ⟨l, hkind⟩ := hfetch.form.mp ⟨_, rfl⟩
    have hterm : terminate env.func frame op following =
        (if IR.Eval.operandValue env.func frame id &&& (IR.Eval.sourceType env.func op).mask != 0
          then .goto then_ else if otherwise = following then .fall else .goto otherwise) := by
      simp only [terminate, hinst, hid, hvalue, Option.map_some, hkind]
    rw [hterm]
    exact hhanded.leads_branchOn hg _ then_ hotherwise

/-- The code of a terminator goes where the terminator leads. -/
theorem Starts.leads_terminator
    (hnext : ∀ target ∈ op.inst.targets, next = some target ↔ target = following)
    (hterm : op.inst.isTerminator = true) :
    Leads host code env (operation op next) s (.here s.asm.size c w) fun _ t q =>
      Goes host code env s.block frame base w (terminate env.func frame op following) t q := by
  unfold operation
  cases hinst : op.inst with
  | branch target =>
    have hterm : terminate env.func frame op following =
        (if target = following then .fall else .goto target) := by
      simp only [terminate, hinst]
    rw [hterm]
    exact (h.handed hlive).leads_branch (hnext target (by simp [hinst, Instruction.targets]))
  | branchIf then_ otherwise =>
    have hmem : then_ ∈ op.inst.targets ∧ otherwise ∈ op.inst.targets := by
      simp only [hinst, Instruction.targets]
      split
      next heq => simp [heq]
      next => simp
    exact h.leads_branchIf hlive hinst (hnext _ hmem.1) (hnext _ hmem.2)
  | dispatch =>
    simp only [terminate, hinst]
    exact h.leads_dispatch
  | exit =>
    simp only [terminate, hinst]
    exact h.leads_exit
  | _ =>
    rw [hinst] at hterm
    cases hterm

end

end Codegen

end Dynarec.Host
