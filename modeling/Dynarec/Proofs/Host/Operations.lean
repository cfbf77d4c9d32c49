import Dynarec.Proofs.Host.ContextAccess

/-!
# Operations

The code of an operation does what the operation does: it reads the values its sources have, makes
the same calls and the same changes of the context, and leaves the value of its destination where
later operations look for it. The code of pure instructions is taken as given.
-/

set_option synthInstance.maxSize 10000

/-- Whether an instruction gives its operation a value. -/
def Dynarec.IR.Instruction.hasResult : Dynarec.IR.Instruction → Bool
  | .storeContext _ | .store _ | .supervisorCall | .breakpoint | .undefined | .invalidateCacheLine
  | .countCall => false
  | inst => !inst.isTerminator

namespace Dynarec.Host

open IR.Eval Gp Asm

/-- The surroundings carry out what operations ask the host for. Calls do not look at registers
beyond their arguments. -/
structure Serves {ω : Type} (host : Surroundings ω) (native : IR.Native ω) : Prop where
  context : ∀ w, native.context w = host.context w
  mapContext : ∀ g w, native.mapContext g w = host.mapContext (fun _ => g (host.context w)) w
  context_mapContext : ∀ g w, host.context (host.mapContext g w) = g (host.context w)
  load : ∀ size a b w, host.call (.readMemory size) a b w = native.load size a w
  store : ∀ size a b w, (host.call (.writeMemory size) a b w).2 = native.store size a b w
  readCounter : ∀ a b w, host.call .readCounter a b w = native.readCounter w
  readFrequency : ∀ a b w, host.call .readFrequency a b w = native.readFrequency w
  supervisorCall : ∀ a b w,
    (host.call .supervisorCall a b w).2 = native.supervisorCall a b.toUInt32 w
  breakpoint : ∀ a b w, (host.call .breakpoint a b w).2 = native.breakpoint a b.toUInt32 w
  undefined : ∀ a b w, (host.call .undefinedInstruction a b w).2 = native.undefined a b.toUInt32 w
  invalidateLine : ∀ a b w, (host.call .invalidateCacheLine a b w).2 = native.invalidateLine a w
  countCall : ∀ counter guest threshold b w, native.countCall counter guest threshold w =
    if (host.addToCounter counter 1 w).1 = (threshold.toNat - 1).toUInt64 then
      (host.call .enqueueRejit guest b (host.addToCounter counter 1 w).2).2
    else (host.addToCounter counter 1 w).2

theorem HostCall.ofAddress?_address (call : HostCall) : ofAddress? call.address = some call := by
  cases call with
  | readMemory size => cases size <;> decide
  | writeMemory size => cases size <;> decide
  | _ => decide

namespace Asm

variable {d r : Reg} {i j : Gp} (a : Assembler)

theorem run_alu (op : AluOp) (ty : IR.Ty) (hi : d.gp? = some i) (hj : r.gp? = some j) :
    (alu op ty d r).run a =
      (.ok (), a.push (.alu op ty i j)) := by
  simp only [alu, gp, hi, hj]
  rfl

end Asm

theorem Exec.zero_subFlags (a b : UInt64) : (subFlags .i64 a b).zero = (a == b) := by
  simp only [subFlags]
  exact Bool.eq_iff_iff.mpr (by simp [UInt64.sub_eq_iff_eq_add])

namespace Codegen

open IR (BlockId Function Instruction LocalSet OperandId Operation Ty)

variable {ω : Type} {host : Surroundings ω} {code : Assembler} {env : Env} {s t : State}
  {c c' : Cpu} {w : ω} {σ : Nat → UInt64} {known : Nat → Prop} {base : UInt64} {l : Nat} {g : Gp}
  {v : Value} {x y : UInt64} {r q : Reg} {d j : Gp} {i : Nat} {args : List Value} {w' w₀ : ω}
  {s₀ : State}

/-- The number of the register that points to the context. -/
def contextGp : Gp := ⟨15, by decide⟩

theorem gp?_contextReg : contextReg.gp? = some contextGp := rfl

/-! ### Moves -/

theorem Holds.congr (h : Holds c v x)
    (hregs : ∀ q, allocatableSet.has q = true → c'.get q = c.get q) : Holds c' v x := by
  cases v with
  | imm _ => exact h
  | reg r =>
    obtain ⟨g, rfl, hg, hx⟩ := h
    exact ⟨g, rfl, hg, (hregs g hg).trans hx⟩

theorem Holds.of_regs (h : Holds c v x) (hregs : c'.regs = c.regs) : Holds c' v x :=
  h.congr fun q _ => Cpu.get_congr hregs q

structure Sets (d : Gp) (x : UInt64) (s : State) (c : Cpu) (t : State) (c' : Cpu) : Prop where
  keeps : Keeps s t
  value : c'.get d = x
  other : ∀ q, q ≠ d → c'.get q = c.get q
  stack : c'.stack = c.stack

theorem sets_set (hk : Keeps s t) (d : Gp) (x : UInt64) : Sets d x s c t (c.set d x) :=
  ⟨hk, Cpu.get_set_self .., fun _ hq => Cpu.get_set_ne _ _ hq, rfl⟩

theorem Keeps.refl (s : State) : Keeps s s := ⟨rfl, rfl, rfl, rfl⟩

theorem Keeps.trans {u : State} (h : Keeps s t) (h' : Keeps t u) : Keeps s u :=
  ⟨h'.regs.trans h.regs, h'.dirty.trans h.dirty, h'.block.trans h.block, h'.stale.trans h.stale⟩

theorem keeps_asm (s : State) (b : Assembler) : Keeps s { s with asm := b } := ⟨rfl, rfl, rfl, rfl⟩

theorem passes_movImm (hd : r.gp? = some d) (x : UInt64) :
    Passes host code env (asm (movImm r x)) s c w fun _ t c' w' =>
      w' = w ∧ Sets d x s c t c' := by
  refine passes_emit (b := s.asm.push (.movImm d x)) ?_ rfl rfl ⟨rfl, sets_set (keeps_asm s _) d x⟩
  simp only [movImm, gp, hd]
  rfl

theorem passes_mov (ty : Ty) (hd : r.gp? = some d) (hg : q.gp? = some g) :
    Passes host code env (asm (mov ty r q)) s c w fun _ t c' w' =>
      w' = w ∧ Sets d (c.get g &&& ty.mask) s c t c' := by
  refine passes_emit (b := s.asm.push (.mov ty d g)) ?_ rfl rfl ⟨rfl, sets_set (keeps_asm s _) d _⟩
  simp only [mov, gp, hd, hg]
  rfl

theorem passes_movValue (hd : r.gp? = some d) (hv : Holds c v x) :
    Passes host code env (movValue r v) s c w fun _ t c' w' => w' = w ∧ Sets d x s c t c' := by
  cases v with
  | imm v =>
    obtain rfl : v = x := hv
    exact passes_movImm hd v
  | reg q =>
    obtain ⟨g, rfl, hg, rfl⟩ := hv
    unfold movValue
    dsimp only
    split
    next heq =>
      rw [Reg.eq_gp hd] at heq
      cases Reg.gp_injective heq
      exact passes_pure ⟨rfl, .refl s, rfl, fun _ _ => rfl, rfl⟩
    · refine (passes_mov .i64 hd (Reg.gp?_gp g)).mono fun _ t c' w' hpost => ?_
      rw [IR.Ty.and_i64_mask] at hpost
      exact hpost

/-- The value of a source in a register, of which only `scratch` may be overwritten. -/
theorem passes_materialize (hd : r.gp? = some d) (hv : Holds c v x) :
    Passes host code env (materialize v r) s c w fun q t c' w' =>
      w' = w ∧ Keeps s t ∧ (∃ g, q.gp? = some g ∧ c'.get g = x) ∧
        (∀ q, q ≠ d → c'.get q = c.get q) ∧ c'.stack = c.stack := by
  cases v with
  | imm v =>
    obtain rfl : v = x := hv
    refine (passes_movImm hd v).bind ?_
    rintro _ t c' w' ⟨rfl, hset⟩
    exact passes_pure ⟨rfl, hset.keeps, ⟨d, hd, hset.value⟩, hset.other, hset.stack⟩
  | reg q =>
    obtain ⟨g, rfl, -, rfl⟩ := hv
    exact passes_pure ⟨rfl, .refl s, ⟨g, Reg.gp?_gp g, rfl⟩, fun _ _ => rfl, rfl⟩

theorem passes_exchangeAdd :
    Passes host code env (asm (lockedExchangeAdd .rax .rcx)) s c w fun _ t c' w' =>
      w' = (host.addToCounter (c.get ax) (c.get cx) w).2 ∧
        Sets cx (host.addToCounter (c.get ax) (c.get cx) w).1 s c t c' :=
  passes_emit (b := { s.asm with lockNext := true }.push (.exchangeAdd ax cx)) rfl rfl rfl
    ⟨rfl, sets_set (keeps_asm s _) cx _⟩

/-- A comparison of two words says whether they are equal. -/
theorem passes_compare {i : Gp} (hi : r.gp? = some i) (hj : q.gp? = some j) :
    Passes host code env (asm (Asm.alu .cmp .i64 r q)) s c w fun _ t c' w' =>
      w' = w ∧ Keeps s t ∧ c'.regs = c.regs ∧ c'.stack = c.stack ∧
        c'.flags.zero = (c.get i == c.get j) :=
  passes_emit (Asm.run_alu s.asm .cmp .i64 hi hj) rfl rfl
    ⟨rfl, keeps_asm s _, rfl, rfl, Exec.zero_subFlags _ _⟩

/-! ### Labels -/

/-- What comes out of the lowering does not depend on whether a run comes to the code. -/
theorem leads_idle_asm {α : Type} (e : Asm α) [Asm.Growing e] (p : Exec.Status ω) :
    Leads host code env (asm e) s p fun _ t q => q = p ∧ s.asm.Within t.asm ∧ Keeps s t := by
  intro a t hrun _
  have hgrow := Grows.within env (asm e) s
  rw [hrun] at hgrow
  refine ⟨p, .refl p, rfl, hgrow, ?_⟩
  rw [run_asm] at hrun
  exact (Prod.mk.inj hrun).2 ▸ keeps_asm s _

theorem passes_newLabel : Passes host code env (asm newLabel) s c w fun l t c' w' =>
      w' = w ∧ c' = c ∧ Keeps s t ∧ l.index < t.asm.labels.size := by
  refine leads_asm fun l b heq _ => ?_
  cases heq
  exact ⟨_, .refl _, c, w, rfl, rfl, rfl, keeps_asm s _, by simp⟩

/-- A conditional branch goes to its label, or on to the next instruction. -/
theorem leads_jcc (cond : CondCode) (l : Label) :
    Leads host code env (asm (jcc cond l)) s (.here s.asm.size c w) fun _ t q =>
      s.asm.Within t.asm ∧ Keeps s t ∧ s.asm.size < t.asm.size ∧
        q = if c.flags.holds cond then .bound s.asm.size l c w else .here t.asm.size c w := by
  have hrun : ((jcc cond l).run s.asm) = (.ok (), s.asm.push (.jcc cond l)) := rfl
  refine leads_emit hrun rfl rfl fun hitem => ?_
  refine ⟨_, ?_, s.asm.within_push _, keeps_asm s _, by simp, rfl⟩
  split
  next h => exact .branch hitem (by simp [Exec.step, h]) (.refl _)
  next h =>
    rw [Assembler.size_push]
    exact .next hitem (by simp [Exec.step, h]) (.refl _)

/-- A run that was on its way to a label is there when the label is placed. -/
theorem leads_place {l : Label} (hl : l.index < s.asm.labels.size) (hi : i < s.asm.size) :
    Leads host code env (asm (place l)) s (.bound i l c w) fun _ t q =>
      Keeps s t ∧ q = .here t.asm.size c w := by
  refine leads_asm fun _ b heq hin => ?_
  rw [run_place] at heq
  split at heq
  · cases heq
  · cases heq
    have hclose := s.asm.within_closeLabel
    refine ⟨_, .land (hin.labels _ _ ?_) ?_ (.refl _), keeps_asm s _, rfl⟩
    · have hlt := hl.trans_le hclose.labels_size
      simp [hlt, Assembler.size]
    · exact hi.trans_le hclose.size_le

/-- A run passes a label. -/
theorem passes_place (l : Label) :
    Passes host code env (asm (place l)) s c w fun _ t c' w' => w' = w ∧ c' = c ∧ Keeps s t := by
  refine leads_asm fun _ b heq hin => ?_
  rw [run_place] at heq
  split at heq
  · cases heq
  · cases heq
    refine ⟨_, ?_, c, w, rfl, rfl, rfl, keeps_asm s _⟩
    unfold Assembler.closeLabel at hin ⊢
    split at hin
    next hopen =>
      -- an empty instruction keeps the label apart from the one before it
      have hitem : code.items[s.asm.size]? = some ⟨.nop, s.asm.lockNext⟩ := by
        refine hin.items _ _ ?_
        simp [Assembler.push, Assembler.size]
      rw [if_pos hopen]
      have hsize : (s.asm.push .nop).items.size = s.asm.size + 1 := s.asm.size_push .nop
      simp only [Assembler.size, hsize]
      exact .next hitem rfl (.refl _)
    next hopen =>
      rw [if_neg hopen]
      exact .refl _

/-! ### Fields of the context -/

theorem passes_storeField {field : IR.Field} {width : Width}
    (hwidth : Width.ofBytes? field.size = some width) (hv : Holds c v x) :
    Passes host code env (storeField field width v) s c w fun _ t c' w' =>
      w' = host.mapContext (fun _ => (host.context w).put field x) w ∧ Keeps s t ∧
        (∀ q, q ≠ ax → c'.get q = c.get q) ∧ c'.stack = c.stack := by
  unfold storeField
  split
  next imm himm =>
    have hput : (host.context w).put field (UInt64.ofInt imm.toInt) =
        (host.context w).put field x := by
      cases v with
      | reg q => cases himm
      | imm v =>
        obtain rfl : v = x := hv
        refine Exec.put_imm hwidth _ ?_
        cases width with
        | b32 => exact .inl ⟨(Option.some.inj himm).symm, rfl⟩
        | b8 | b16 | b64 => exact .inr himm
    obtain ⟨ty, hrun, hty⟩ := run_storeImm s.asm (contextDisp field.offset) imm
      (Exec.word_of_field hwidth) gp?_contextReg
    have hstep : Exec.step host c w (.storeImm ty contextGp (contextDisp field.offset) imm) =
        .next c (host.mapContext (fun _ => (host.context w).put field x) w) := by
      simp only [Exec.step, hty, Exec.store?_field host gp?_contextReg c w _ hwidth, hput]
    exact passes_emit hrun rfl hstep ⟨rfl, keeps_asm s _, fun _ _ => rfl, rfl⟩
  next =>
    refine (passes_materialize rfl hv).bind ?_
    rintro q t c' w' ⟨rfl, hkeep, ⟨g, hg, rfl⟩, hother, hstack⟩
    have hstep : Exec.step host c' w' (.store width contextGp (contextDisp field.offset) g) =
        .next c' (host.mapContext (fun _ => (host.context w').put field (c'.get g)) w') := by
      simp only [Exec.step, Exec.store?_field host gp?_contextReg c' w' _ hwidth]
    exact passes_emit (run_store t.asm width _ gp?_contextReg hg) rfl hstep
      ⟨rfl, hkeep.trans (keeps_asm t _), hother, hstack⟩

/-! ### Calls -/

def clobbered (q : Gp) : Prop := q = ax ∨ q = cx ∨ q = dx ∨ callerSavedSet.has q = true

theorem get_foldl_set {q : Gp} (regs : List Gp) (v : Gp → UInt64) (hq : q ∉ regs) (c : Cpu) :
    (regs.foldl (fun c r => c.set r (v r)) c).get q = c.get q := by
  induction regs generalizing c with
  | nil => rfl
  | cons r regs ih =>
    rw [List.mem_cons, not_or] at hq
    rw [List.foldl_cons, ih hq.2, Cpu.get_set_ne _ _ hq.1]

theorem stack_foldl_set (regs : List Gp) (v : Gp → UInt64) (c : Cpu) :
    (regs.foldl (fun c r => c.set r (v r)) c).stack = c.stack := by
  induction regs generalizing c with
  | nil => rfl
  | cons r regs ih => rw [List.foldl_cons, ih, Cpu.stack_set]

structure Returns (host : Surroundings ω) (target : HostCall) (x y : UInt64) (w : ω) (c : Cpu)
    (c' : Cpu) (w' : ω) : Prop where
  world : w' = (host.call target x y w).2
  result : c'.get ax = (host.call target x y w).1
  other : ∀ q, ¬clobbered q → c'.get q = c.get q
  stack : c'.stack = c.stack

theorem passes_callAddress (target : HostCall) (hx : c.get di = x) (hy : c.get si = y) :
    Passes host code env (callAddress target) s c w fun _ t c' w' =>
      Keeps s t ∧ Returns host target x y w c c' w' := by
  refine (passes_movImm (d := ax) rfl _).bind ?_
  rintro _ t c₁ w₁ ⟨rfl, hset⟩
  let regs := (returnReg :: scratchRegs ++ callerSavedRegs).filterMap Reg.gp?
  let after := (host.call target x y w₁).2
  have hregs : ∀ q, ¬clobbered q → q ∉ regs := by
    unfold clobbered
    decide
  have hstep : Exec.step host c₁ w₁ (.callReg ax) =
      .next ((regs.foldl (fun c r => c.set r (host.clobber after r)) c₁).set ax
        (host.call target x y w₁).1) after := by
    simp only [Exec.step, Exec.call, hset.value, HostCall.ofAddress?_address,
      hset.other di (by decide), hset.other si (by decide), hx, hy]
    rfl
  have hcall : Passes host code env (asm (callReg .rax)) t c₁ w₁ fun _ u c' w' =>
      Keeps t u ∧ Returns host target x y w₁ c c' w' := by
    refine passes_emit (b := t.asm.push (.callReg ax)) rfl rfl hstep
      ⟨keeps_asm t _, rfl, ?_, ?_, ?_⟩
    · exact Cpu.get_set_self ..
    · intro q hq
      have hax : q ≠ ax := fun he => hq (.inl he)
      rw [Cpu.get_set_ne _ _ hax, get_foldl_set _ _ (hregs q hq), hset.other q hax]
    · rw [Cpu.stack_set, stack_foldl_set, hset.stack]
  refine hcall.bind fun _ u c' w' hmid => ?_
  exact leads_modify ⟨c', w', rfl, (hset.keeps.trans hmid.1).trans ⟨rfl, rfl, rfl, rfl⟩, hmid.2⟩

theorem clobbered_di : clobbered di := by
  unfold clobbered
  decide

theorem clobbered_si : clobbered si := by
  unfold clobbered
  decide

/-- Counting up overwrites scratch registers only. -/
theorem passes_countUp (counter threshold : UInt64) :
    Passes host code env (countUp counter threshold) s c w fun _ t c' w' =>
      w' = (host.addToCounter counter 1 w).2 ∧ Keeps s t ∧
        (∀ q, ¬clobbered q → c'.get q = c.get q) ∧ c'.stack = c.stack ∧
          c'.flags.holds .ne =
            ((host.addToCounter counter 1 w).1 != (threshold.toNat - 1).toUInt64) := by
  refine (passes_movImm (d := ax) rfl counter).bind ?_
  rintro _ t c₁ w₁ ⟨rfl, hax⟩
  refine (passes_movImm (d := cx) rfl 1).bind ?_
  rintro _ t₁ c₂ w₂ ⟨rfl, hcx⟩
  refine (passes_exchangeAdd).bind ?_
  rintro _ t₂ c₃ w₃ ⟨rfl, hadd⟩
  rw [hcx.other _ (by decide), hax.value, hcx.value] at hadd ⊢
  refine (passes_movImm (d := dx) rfl _).bind ?_
  rintro _ t₃ c₄ w₄ ⟨rfl, hdx⟩
  refine (passes_compare (i := cx) (j := dx) rfl rfl).mono ?_
  rintro _ t₄ c₅ w₅ ⟨rfl, hkeep, hregs, hstack, hzero⟩
  rw [hdx.other _ (by decide), hadd.value, hdx.value] at hzero
  refine ⟨rfl, (((hax.keeps.trans hcx.keeps).trans hadd.keeps).trans hdx.keeps).trans hkeep,
    fun q hq => ?_, ?_, ?_⟩
  · rw [Cpu.get_congr hregs, hdx.other q fun he => hq (.inr (.inr (.inl he))),
      hadd.other q fun he => hq (.inr (.inl he)), hcx.other q fun he => hq (.inr (.inl he)),
      hax.other q fun he => hq (.inl he)]
  · rw [hstack, hdx.stack, hadd.stack, hcx.stack, hax.stack]
  · rw [Flags.holds, hzero, bne]

theorem leads_idle_callAddress (target : HostCall) (p : Exec.Status ω) :
    Leads host code env (callAddress target) s p fun _ t q =>
      q = p ∧ s.asm.Within t.asm ∧ Keeps s t := by
  refine Leads.bind (leads_idle_asm _ p) ?_
  rintro _ t q ⟨rfl, hin, hkeep⟩
  refine Leads.bind (leads_idle_asm _ q) ?_
  rintro _ u q' ⟨rfl, hin', hkeep'⟩
  exact leads_modify ⟨rfl, hin.trans hin', (hkeep.trans hkeep').trans ⟨rfl, rfl, rfl, rfl⟩⟩

/-- Settled locals stay so over a call, once no register that it may overwrite has an owner. -/
theorem Settled.returned (h : Settled env σ known base s c) (hk : Keeps s t)
    (hsaved : ∀ g l, s.regs.owners.get g = some l → callerSavedSet.has g = false)
    (hother : ∀ q, ¬clobbered q → c'.get q = c.get q) (hstack : c'.stack = c.stack) :
    Settled env σ known base t c' := by
  refine h.congr hk (hother _ (by unfold clobbered; decide)) (fun q k ho => hother q ?_) hstack
  have hq : allocatableSet.has q = true := h.allocatable ▸ h.valid.allocatable_of_owner ho
  have hne : ∀ q, allocatableSet.has q = true → callerSavedSet.has q = false → ¬clobbered q := by
    unfold clobbered
    decide
  exact hne q hq (hsaved q k ho)

/-- The arguments of a call are at hand; a register beyond them may have any value. -/
def Arguments (c : Cpu) : List Value → UInt64 → UInt64 → Prop
  | [], x, y => c.get di = x ∧ c.get si = y
  | [a], x, y => Holds c a x ∧ c.get si = y
  | [a, b], x, y => Holds c a x ∧ Holds c b y
  | _, _, _ => False

/-- The call itself, with the arguments in place. -/
theorem Settled.passes_invoke (h : Settled env σ known base s c)
    (hsaved : ∀ g l, s.regs.owners.get g = some l → callerSavedSet.has g = false)
    (target : HostCall) (hk : Keeps s t) (hother : ∀ q, ¬clobbered q → c'.get q = c.get q)
    (hstack : c'.stack = c.stack) (hx : c'.get di = x) (hy : c'.get si = y) :
    Passes host code env (callAddress target) t c' w fun _ u c'' w'' =>
      u.block = s.block ∧ Settled env σ known base u c'' ∧ w'' = (host.call target x y w).2 ∧
        c''.get ax = (host.call target x y w).1 := by
  refine (passes_callAddress target hx hy).mono ?_
  rintro _ v c'' w'' ⟨hkeep, hret⟩
  refine ⟨hkeep.block.trans hk.block, ?_, hret.world, hret.result⟩
  refine h.returned (hk.trans hkeep) hsaved (fun q hq => ?_) (hret.stack.trans hstack)
  rw [hret.other q hq, hother q hq]

theorem Settled.passes_call (hn : env.func.localCount ≤ 2 ^ 28) (h : Settled env σ known base s c)
    (target : HostCall) (hargs : Arguments c args x y) :
    Passes host code env (call target args) s c w fun _ t c' w' =>
      t.block = s.block ∧ Settled env σ known base t c' ∧ w' = (host.call target x y w).2 ∧
        c'.get ax = (host.call target x y w).1 := by
  rcases args with _ | ⟨a, _ | ⟨b, _ | ⟨d, rest⟩⟩⟩
  rotate_left 3
  · exact hargs.elim
  all_goals
    refine (h.passes_flush hn).bind ?_
    rintro _ t c₁ w₁ ⟨rfl, hregs, hblock, hset, hsaved⟩
    rw [← hblock]
    have hget : ∀ q, c₁.get q = c.get q := Cpu.get_congr hregs
  · exact hset.passes_invoke hsaved target (.refl t) (fun _ _ => rfl) rfl ((hget _).trans hargs.1)
      ((hget _).trans hargs.2)
  · refine (passes_movValue rfl (hargs.1.of_regs hregs)).bind ?_
    rintro _ u c₂ w₂ ⟨rfl, hmov⟩
    refine hset.passes_invoke hsaved target hmov.keeps
      (fun q hq => hmov.other q fun he => hq (he ▸ clobbered_di)) hmov.stack hmov.value ?_
    rw [hmov.other _ (by decide), hget]
    exact hargs.2
  · -- the second argument goes through register 0, which holds neither of them
    refine (passes_movValue (d := ax) rfl (hargs.2.of_regs hregs)).bind ?_
    rintro _ u c₂ w₂ ⟨rfl, hmovb⟩
    have ha : Holds c₂ a x := (hargs.1.of_regs hregs).congr fun q hq =>
      hmovb.other q (by rintro rfl; exact absurd hq (by decide))
    refine (passes_movValue (d := di) rfl ha).bind ?_
    rintro _ v c₃ w₃ ⟨rfl, hmova⟩
    refine (passes_mov .i64 (d := si) (g := ax) rfl rfl).bind ?_
    rintro _ z c₄ w₄ ⟨rfl, hmov⟩
    refine hset.passes_invoke hsaved target ((hmovb.keeps.trans hmova.keeps).trans hmov.keeps)
      (fun q hq => ?_) ?_ ?_ ?_
    · rw [hmov.other q fun he => hq (he ▸ clobbered_si),
        hmova.other q fun he => hq (he ▸ clobbered_di), hmovb.other q fun he => hq (.inl he)]
    · rw [hmov.stack, hmova.stack, hmovb.stack]
    · rw [hmov.other _ (by decide), hmova.value]
    · rw [hmov.value, IR.Ty.and_i64_mask, hmova.other _ (by decide), hmovb.value]

/-! ### Results -/

/-- The code of an operation has done what the operation does. -/
structure Stepped (env : Env) (native : IR.Native ω) (op : Operation) (frame : IR.Frame)
    (known : Nat → Prop) (base : UInt64) (s : State) (w : ω) (t : State) (c' : Cpu) (w' : ω) :
    Prop where
  world : w' = (step env.func native op frame w).2
  block : t.block = s.block
  size : (step env.func native op frame w).1.size = frame.size
  settled : Settled env (fun l => (step env.func native op frame w).1.getD l 0)
    (fun l => known l ∨ ∃ d, op.dest = some d ∧ (env.func.operand d).local? = some l) base t c'

variable {native : IR.Native ω} {op : Operation} {frame : IR.Frame}

def DestInRange (f : Function) (op : Operation) : Prop :=
  ∀ d, op.dest = some d → ∀ l, (f.operand d).local? = some l → l < f.localCount

theorem getD_setIfInBounds (hl : l < frame.size) (v : UInt64) :
    (fun k => (frame.setIfInBounds l v).getD k 0) =
      Function.update (fun k => frame.getD k 0) l v := by
  funext k
  by_cases hk : k = l
  · subst hk
    simp [hl]
  · rw [Function.update_of_ne hk]
    simp [Array.getElem?_setIfInBounds_ne (Ne.symm hk)]

/-- An operation whose result is `v` has stepped when its destination is defined as `v`. -/
theorem stepped_of_result {d : OperandId} {v : UInt64} (hframe : frame.size = env.func.localCount)
    (hd : op.dest = some d) (hl : (env.func.operand d).local? = some l)
    (hlt : l < env.func.localCount)
    (hstep : step env.func native op frame w = (write env.func frame op v, w'))
    (hblock : t.block = s.block)
    (hset : Settled env (Function.update (fun k => frame.getD k 0) l v) (fun k => known k ∨ k = l)
      base t c') : Stepped env native op frame known base s w t c' w' := by
  have hwrite : write env.func frame op v = frame.setIfInBounds l v := by
    simp [write, hd, hl]
  have hknown : ∀ k, (known k ∨ ∃ d', op.dest = some d' ∧ (env.func.operand d').local? = some k) ↔
      (known k ∨ k = l) := by
    rw [hd]
    simp [hl, eq_comm]
  refine ⟨by rw [hstep], hblock, by simp [hstep, hwrite], ?_⟩
  simp only [hstep, hwrite, getD_setIfInBounds (hframe ▸ hlt), hknown]
  exact hset

/-- An operation without a result has stepped when locals are as before. -/
theorem stepped_of_effect (hd : op.dest = none)
    (hstep : step env.func native op frame w = (frame, w')) (hblock : t.block = s.block)
    (hset : Settled env (fun k => frame.getD k 0) known base t c') :
    Stepped env native op frame known base s w t c' w' := by
  refine ⟨by rw [hstep], hblock, by rw [hstep], ?_⟩
  simp only [hstep, hd, reduceCtorEq, false_and, exists_false, or_false]
  exact hset

/-- What the code of an operation starts from. -/
structure Starts (env : Env) (op : Operation) (frame : IR.Frame) (known : Nat → Prop)
    (base : UInt64) (s : State) (c : Cpu) : Prop where
  small : env.func.localCount ≤ 2 ^ 28
  frame_size : frame.size = env.func.localCount
  sources : KnowsSources env.func known op
  dest : DestInRange env.func op
  settled : Settled env (fun k => frame.getD k 0) known base s c

section

variable (h : Starts env op frame known base s c) {d : OperandId} (hd : op.dest = some d)
  {v : UInt64} (hblock₀ : s.block = s₀.block)
  (hstep : step env.func native op frame w₀ = (write env.func frame op v, w))
  (body : Reg → Gen Unit) [∀ r, Grows env (body r)]

include h hd hblock₀ hstep

/-- A definition: what stands between its start and its end puts the value in the register. -/
theorem Starts.passes_definition
    (hbody : ∀ (g : Gp) t c', allocatableSet.has g = true → s.regs.locks.get g = 0 →
      c'.regs = c.regs →
      Passes host code env (body (.gp g.val)) t c' w fun _ u c'' w'' => w'' = w ∧ Keeps t u ∧
        c''.get g = v ∧ c''.get sp = c'.get sp ∧
        (∀ q, allocatableSet.has q = true → q ≠ g → c''.get q = c'.get q) ∧ c''.stack = c'.stack) :
    Passes host code env (do let rd ← define d; body rd; finishDef d rd) s c w
      fun _ => Stepped env native op frame known base s₀ w₀ := by
  refine (h.settled.passes_define h.small (h.dest d hd)).bind ?_
  rintro r t c₁ w₁ ⟨rfl, hregs, hblock, l, g, rfl, hl, hfree, hpend⟩
  have hg : allocatableSet.has g = true :=
    hpend.agrees.allocatable ▸ hpend.agrees.valid.allocatable_of_owner hpend.owner
  refine (hbody g t c₁ hg hfree hregs).bind ?_
  rintro _ u c₂ w₂ ⟨rfl, hkeep, hvalue, hsp, hother, hstack⟩
  refine ((hpend.congr hkeep hsp hother hstack).passes_finishDef h.small hl).mono ?_
  rintro _ z c₃ w₃ ⟨rfl, -, hblock', hset⟩
  rw [hvalue] at hset
  exact stepped_of_result h.frame_size hd hl (h.dest d hd l hl) hstep
    (hblock'.trans (hkeep.block.trans (hblock.trans hblock₀))) hset

/-- A definition that changes no register but that of the result. -/
theorem Starts.passes_move (hbody : ∀ (g : Gp) t c', c'.regs = c.regs →
      Passes host code env (body (.gp g.val)) t c' w fun _ u c'' w'' =>
        w'' = w ∧ Sets g v t c' u c'') :
    Passes host code env (do let rd ← define d; body rd; finishDef d rd) s c w
      fun _ => Stepped env native op frame known base s₀ w₀ := by
  refine h.passes_definition hd hblock₀ hstep body fun g t c' hg _ hregs => ?_
  refine (hbody g t c' hregs).mono ?_
  rintro _ u c'' w'' ⟨rfl, hset⟩
  refine ⟨rfl, hset.keeps, hset.value, hset.other _ ?_, fun q _ hq => hset.other q hq, hset.stack⟩
  rintro rfl
  exact absurd hg (by decide)

end

theorem yields_destType {d : OperandId} (hd : op.dest = some d) :
    Yields env (typeOf d) s fun ty => ty = destType env.func op := by
  rintro ty t ⟨⟩
  simp [destType, hd]

theorem Starts.passes_callForValue (h : Starts env op frame known base s c) (target : HostCall)
    (hargs : Arguments c args x y) (hblock₀ : s.block = s₀.block)
    (hstep : step env.func native op frame w₀ =
      (write env.func frame op ((host.call target x y w).1 &&& (destType env.func op).mask),
        (host.call target x y w).2)) :
    Passes host code env (callForValue op target args) s c w
      fun _ => Stepped env native op frame known base s₀ w₀ := by
  refine (h.settled.passes_call h.small target hargs).bind ?_
  rintro _ t c₁ w₁ ⟨hblock, hset, rfl, hax⟩
  refine (yields_destOf op).bind fun d hd => (yields_destType hd).bind fun ty hty => ?_
  have ht : Starts env op frame known base t c₁ := { h with settled := hset }
  refine ht.passes_move hd (hblock.trans hblock₀) hstep (fun rd => asm (mov ty rd returnReg))
    fun g u c₂ hregs => ?_
  rw [← hax, ← hty, ← Cpu.get_congr hregs ax]
  exact passes_mov ty (Reg.gp?_gp g) rfl

/-! ### Pure instructions -/

theorem pureValue_eq (f : Function) (frame : IR.Frame) (op : Operation) :
    pureValue f frame op = op.inst.pureValue (destType f op) (IR.Eval.sourceType f op)
      (sourceValue f frame op 0) (sourceValue f frame op 1)
      (sourceValue f frame op 2) := by
  unfold pureValue Instruction.pureValue Instruction.arguments
  cases op.inst <;> rfl

/-- The code of a pure instruction, between the start and the end of the definition of its
destination. -/
def pureCode (inst : Instruction) (sourceTy ty : Ty) (rd : Reg) (a b d : Value) :
    Option (Gen Unit) :=
  match inst with
  | .copy => some (movValue rd a)
  | .add => some (alu .add ty rd a b)
  | .subtract => some (alu .sub ty rd a b)
  | .multiply => some (alu .imul ty rd a b)
  | .and => some (alu .and ty rd a b)
  | .or => some (alu .or ty rd a b)
  | .xor => some (alu .xor ty rd a b)
  | .multiplyHighSigned => some (multiplyHigh true ty rd a b)
  | .multiplyHighUnsigned => some (multiplyHigh false ty rd a b)
  | .divideSigned => some (divide true ty rd a b)
  | .divideUnsigned => some (divide false ty rd a b)
  | .shiftLeft => some (shift .shl ty rd a b)
  | .shiftRightLogical => some (shift .shr ty rd a b)
  | .shiftRightArithmetic => some (shift .sar ty rd a b)
  | .rotateRight => some (shift .ror ty rd a b)
  | .not => some (do movValue rd a; asm (not ty rd))
  | .negate => some (do movValue rd a; asm (neg ty rd))
  | .byteSwap => some (do movValue rd a; asm (bswap ty rd))
  | .countLeadingZeros => some (countLeadingZeros ty rd a)
  | .compare cmp => some (setIf cmp sourceTy rd a b)
  | .select => some (pick sourceTy ty rd a b d)
  | .zeroExtend8 | .zeroExtend16 | .zeroExtend32 | .signExtend8 | .signExtend16 | .signExtend32
  | .truncate => some (resize inst ty rd a)
  | _ => none

/-- The code of a pure instruction computes its value: from sources that are immediates or in
registers other than `rd`, into `rd`. It changes no register but that and registers 0 to 2. -/
def Computes (host : Surroundings ω) (inst : Instruction) (sourceTy ty : Ty) : Prop :=
  ∀ code env s c w (rd : Gp) a b d x y z body, allocatableSet.has rd = true →
    pureCode inst sourceTy ty (.gp rd.val) a b d = some body →
    Holds c a x → Holds c b y → Holds c d z →
    (∀ v ∈ [a, b, d], v ≠ .reg (.gp rd.val)) →
    Passes host code env body s c w fun _ t c' w' =>
      w' = w ∧ Keeps s t ∧ c'.get rd = inst.pureValue ty sourceTy x y z ∧
        (∀ q, q ≠ rd → q ≠ ax → q ≠ cx → q ≠ dx → c'.get q = c.get q) ∧ c'.stack = c.stack

structure Ready (f : Function) (frame : IR.Frame) (op : Operation) (i : Nat) (v : Value) (s : State)
    (c : Cpu) : Prop where
  holds : Holds c v (sourceValue f frame op i)
  pinned : Pinned s v

theorem Steady.ready (h : Steady s t c c') (hv : Ready env.func frame op i v s c) :
    Ready env.func frame op i v t c' :=
  ⟨h.holds hv.pinned hv.holds, h.pinned hv.pinned⟩

theorem ready_imm (f : Function) (frame : IR.Frame) (op : Operation) (i : Nat) (s : State)
    (c : Cpu) : Ready f frame op i (.imm (sourceValue f frame op i)) s c :=
  ⟨rfl, fun _ h => by cases h⟩

/-- The rest of a pure operation, when its sources are at hand. -/
theorem Starts.passes_pure (h : Starts env op frame known base s c)
    (hcomp : Computes host op.inst (IR.Eval.sourceType env.func op) (destType env.func op))
    {a b e : Value} (ha : Ready env.func frame op 0 a s c) (hb : Ready env.func frame op 1 b s c)
    (he : Ready env.func frame op 2 e s c) (hblock : s.block = s₀.block)
    (body : Ty → Reg → Gen Unit) [∀ ty r, Grows env (body ty r)]
    (hbody : ∀ rd, pureCode op.inst (IR.Eval.sourceType env.func op) (destType env.func op) rd
      a b e = some (body (destType env.func op) rd)) :
    Passes host code env (do
      let d ← destOf op
      let ty ← typeOf d
      let rd ← define d
      body ty rd
      finishDef d rd) s c w fun _ => Stepped env native op frame known base s₀ w := by
  refine (yields_destOf op).bind fun d hd => (yields_destType hd).bind fun ty hty => ?_
  subst hty
  have hstep : step env.func native op frame w =
      (write env.func frame op (pureValue env.func frame op), w) := by
    have hsome := hbody .rax
    unfold step
    cases hinst : op.inst <;> first | rfl | (rw [hinst] at hsome; cases hsome)
  refine h.passes_definition hd hblock hstep (body _) fun g t c' hg hfree hregs => ?_
  -- sources are not in the register, which was free when the definition started
  have hne : ∀ v ∈ [a, b, e], v ≠ .reg (.gp g.val) := by
    intro v hv heq
    simp only [List.mem_cons, List.not_mem_nil, or_false] at hv
    rcases hv with rfl | rfl | rfl
    · exact ha.pinned g heq hfree
    · exact hb.pinned g heq hfree
    · exact he.pinned g heq hfree
  refine (hcomp code env t c' w g a b e _ _ _ _ hg (hbody _) (ha.holds.of_regs hregs)
    (hb.holds.of_regs hregs) (he.holds.of_regs hregs) hne).mono ?_
  rintro _ u c'' w' ⟨rfl, hkeep, hvalue, hother, hstack⟩
  have hscratch : ∀ q, allocatableSet.has q = true → q ≠ ax ∧ q ≠ cx ∧ q ≠ dx := by decide
  refine ⟨rfl, hkeep, ?_, ?_, fun q hq hqg => ?_, hstack⟩
  · rw [hvalue, pureValue_eq]
  · refine hother _ ?_ (by decide) (by decide) (by decide)
    rintro rfl
    exact absurd hg (by decide)
  · obtain ⟨h₁, h₂, h₃⟩ := hscratch q hq
    exact hother q hqg h₁ h₂ h₃

theorem yields_sourceType (op : Operation) :
    Yields env (sourceType op 0) s fun ty => ty = IR.Eval.sourceType env.func op := by
  have hread : sourceType op 0 env s =
      (sourceId op 0 >>= fun id => pure (env.func.operand id).ty) env s := rfl
  intro ty t hrun
  rw [hread] at hrun
  obtain ⟨id, u, heq, hty⟩ := ok_of_bind hrun
  obtain ⟨hid, rfl⟩ := yields_sourceId op 0 id u heq
  cases hty
  simp [IR.Eval.sourceType, hid]

theorem yields_constantSource (op : Operation) (i : Nat) :
    Yields env (constantSource op i) s fun v => ∀ frame, sourceValue env.func frame op i = v := by
  have hread : (read : Gen Env) env s = (.ok env, s) := rfl
  intro v t hrun
  simp only [constantSource, run_bind, hread] at hrun
  split at hrun
  next id u heq =>
    obtain ⟨hid, rfl⟩ := yields_sourceId op i id u heq
    cases hconst : (env.func.operand id).constant? with
    | none =>
      rw [hconst] at hrun
      cases hrun
    | some v' =>
      rw [hconst] at hrun
      cases hrun
      have hkind : (env.func.operand id).kind = .constant v := by
        unfold IR.Operand.constant? at hconst
        split at hconst
        next heq =>
          cases hconst
          exact heq
        · cases hconst
      simp [sourceValue, hid, IR.Eval.operandValue, hkind]
  · cases hrun

theorem yields_widthOf (bytes : Nat) :
    Yields env (widthOf bytes) s fun width => Width.ofBytes? bytes = some width :=
  yields_option (fun width hw => by rw [widthOf, Width.ofBytes, hw]; rfl)
    fun hw => ⟨_, by rw [widthOf, Width.ofBytes, hw]; rfl⟩

namespace Starts

variable (h : Starts env op frame known base s c)

include h

/-- The next source is loaded; those at hand stay. -/
theorem passes_source (i : Nat) : Passes host code env (source op i) s c w fun v t c' w' =>
      w' = w ∧ Starts env op frame known base t c' ∧ Steady s t c c' ∧
        Ready env.func frame op i v t c' := by
  refine (h.settled.passes_source h.small i h.sources).mono ?_
  rintro v t c' w' ⟨rfl, hset, hsteady, id, hid, hfetch⟩
  refine ⟨rfl, { h with settled := hset }, hsteady, ?_, hfetch.pinned⟩
  simpa [sourceValue, hid] using hfetch.holds

section Pure

variable (hcomp : Computes host op.inst (IR.Eval.sourceType env.func op) (destType env.func op))

include hcomp

theorem passes_unary (body : Ty → Reg → Value → Gen Unit) [∀ ty rd a, Grows env (body ty rd a)]
    (hbody : ∀ rd a b e, pureCode op.inst (IR.Eval.sourceType env.func op)
      (destType env.func op) rd a b e = some (body (destType env.func op) rd a)) :
    Passes host code env (unary op body) s c w
      fun _ => Stepped env native op frame known base s w := by
  refine (h.passes_source 0).bind ?_
  rintro a t c₁ w₁ ⟨rfl, ht, hsteady, ha⟩
  exact ht.passes_pure hcomp ha (ready_imm ..) (ready_imm ..) hsteady.block
    (fun ty rd => body ty rd a) fun rd => hbody rd _ _ _

theorem passes_binary (body : Ty → Reg → Value → Value → Gen Unit)
    [∀ ty rd a b, Grows env (body ty rd a b)]
    (hbody : ∀ rd a b e, pureCode op.inst (IR.Eval.sourceType env.func op)
      (destType env.func op) rd a b e = some (body (destType env.func op) rd a b)) :
    Passes host code env (binary op body) s c w
      fun _ => Stepped env native op frame known base s w := by
  refine (h.passes_source 0).bind ?_
  rintro a t c₁ w₁ ⟨rfl, ht, hsteady, ha⟩
  refine (ht.passes_source 1).bind ?_
  rintro b u c₂ w₂ ⟨rfl, hu, hsteady', hb⟩
  exact hu.passes_pure hcomp (hsteady'.ready ha) hb (ready_imm ..)
    (hsteady'.block.trans hsteady.block) (fun ty rd => body ty rd a b) fun rd => hbody rd _ _ _

theorem passes_select (hinst : op.inst = .select) :
    Passes host code env (select op) s c w fun _ => Stepped env native op frame known base s w := by
  refine (yields_sourceType op).bind fun sourceTy hsourceTy => ?_
  subst hsourceTy
  refine (h.passes_source 0).bind ?_
  rintro a t c₁ w₁ ⟨rfl, ht, hsteady, ha⟩
  refine (ht.passes_source 1).bind ?_
  rintro b u c₂ w₂ ⟨rfl, hu, hsteady', hb⟩
  refine (hu.passes_source 2).bind ?_
  rintro e v c₃ w₃ ⟨rfl, hv, hsteady'', he⟩
  exact hv.passes_pure hcomp (hsteady''.ready (hsteady'.ready ha)) (hsteady''.ready hb) he
    (hsteady''.block.trans (hsteady'.block.trans hsteady.block)) (fun ty rd => pick _ ty rd a b e)
    fun rd => by rw [hinst]; rfl

end Pure

/-! ### The host -/

/-- A call with two sources as arguments, for its effect. -/
theorem passes_callTwo (target : HostCall) (hdest : op.dest = none)
    (hstep : step env.func native op frame w = (frame, (host.call target
      (sourceValue env.func frame op 0) (sourceValue env.func frame op 1) w).2)) :
    Passes host code env (do
      let a ← source op 0
      let b ← source op 1
      call target [a, b]) s c w fun _ =>
      Stepped env native op frame known base s w := by
  refine (h.passes_source 0).bind ?_
  rintro a t c₁ w₁ ⟨rfl, ht, hsteady, ha⟩
  refine (ht.passes_source 1).bind ?_
  rintro b u c₂ w₂ ⟨rfl, hu, hsteady', hb⟩
  have hargs : Arguments c₂ [a, b] _ _ := ⟨(hsteady'.ready ha).holds, hb.holds⟩
  refine (hu.settled.passes_call hu.small target hargs).mono ?_
  rintro _ v c₃ w₃ ⟨hblock, hset, rfl, -⟩
  exact stepped_of_effect hdest hstep (hblock.trans (hsteady'.block.trans hsteady.block)) hset

/-- A call with one source as its argument, for its effect. -/
theorem passes_callOne (target : HostCall) (hdest : op.dest = none)
    (hstep : ∀ y, step env.func native op frame w =
      (frame, (host.call target (sourceValue env.func frame op 0) y w).2)) :
    Passes host code env (do
      let a ← source op 0
      call target [a]) s c w fun _ =>
      Stepped env native op frame known base s w := by
  refine (h.passes_source 0).bind ?_
  rintro a t c₁ w₁ ⟨rfl, ht, hsteady, ha⟩
  have hargs : Arguments c₁ [a] _ _ := ⟨ha.holds, rfl⟩
  refine (ht.settled.passes_call ht.small target hargs).mono ?_
  rintro _ v c₃ w₃ ⟨hblock, hset, rfl, -⟩
  exact stepped_of_effect hdest (hstep _) (hblock.trans hsteady.block) hset

variable (hserve : Serves host native)

include hserve

theorem passes_load {size : Guest.AccessSize} (hinst : op.inst = .load size) :
    Passes host code env (do
      let address ← source op 0
      callForValue op (.readMemory size) [address]) s c w fun _ =>
      Stepped env native op frame known base s w := by
  refine (h.passes_source 0).bind ?_
  rintro a t c₁ w₁ ⟨rfl, ht, hsteady, ha⟩
  have hargs : Arguments c₁ [a] _ _ := ⟨ha.holds, rfl⟩
  refine ht.passes_callForValue _ hargs hsteady.block ?_
  simp only [step, hinst, hserve.load]

/-! ### The context -/

theorem passes_loadContext {field : IR.Field} (hinst : op.inst = .loadContext field) :
    Passes host code env (loadContext op field) s c w fun _ =>
      Stepped env native op frame known base s w := by
  refine (yields_destOf op).bind fun d hd => (yields_destType hd).bind fun ty hty => ?_
  refine (yields_widthOf _).bind fun width hwidth => ?_
  have hstep : step env.func native op frame w =
      (write env.func frame op ((host.context w).get field &&& ty.mask), w) := by
    simp only [step, hinst, hserve.context, hty]
  refine h.passes_move hd rfl hstep
    (fun rd => asm (load width rd contextReg (contextDisp field.offset))) fun g t c' _ => ?_
  have hstep : Exec.step host c' w (.load width g contextGp (contextDisp field.offset)) =
      .next (c'.set g ((host.context w).get field &&& ty.mask)) w := by
    simp only [Exec.step, Exec.load?_field host gp?_contextReg c' w hwidth]
  exact passes_emit (run_load t.asm width _ (Reg.gp?_gp g) gp?_contextReg) rfl hstep
    ⟨rfl, sets_set (keeps_asm t _) g _⟩

theorem passes_storeContext {field : IR.Field} (hinst : op.inst = .storeContext field)
    (hdest : op.dest = none) :
    Passes host code env (storeContext op field) s c w fun _ =>
      Stepped env native op frame known base s w := by
  refine (h.passes_source 0).bind ?_
  rintro value t c₁ w₁ ⟨rfl, ht, hsteady, hvalue⟩
  refine (yields_widthOf _).bind fun width hwidth => ?_
  refine (passes_storeField hwidth hvalue.holds).mono ?_
  rintro _ u c₂ w₂ ⟨rfl, hkeep, hother, hstack⟩
  refine stepped_of_effect hdest ?_ (hkeep.block.trans hsteady.block) ?_
  · simp only [step, hinst, hserve.mapContext]
  · refine ht.settled.congr hkeep (hother _ (by decide)) (fun q l ho => hother q ?_) hstack
    rintro rfl
    exact absurd (ht.settled.allocatable ▸ ht.settled.valid.allocatable_of_owner ho) (by decide)

/-! ### Counting -/

theorem passes_countEntry (hinst : op.inst = .countCall) (hdest : op.dest = none) :
    Passes host code env (countEntry op) s c w fun _ =>
      Stepped env native op frame known base s w := by
  refine (yields_constantSource op 0).bind fun counter hcounter => ?_
  refine (yields_constantSource op 1).bind fun guest hguest => ?_
  refine (yields_constantSource op 2).bind fun threshold hthreshold => ?_
  have hstep : step env.func native op frame w =
      (frame, native.countCall counter guest threshold w) := by
    simp only [step, hinst, hcounter, hguest, hthreshold]
  refine (h.settled.passes_flush h.small).bind ?_
  rintro _ t c₁ w₁ ⟨rfl, -, hblock, hset, hsaved⟩
  refine passes_newLabel.bind ?_
  rintro skip u c₂ w₂ ⟨rfl, rfl, hkeep, hskip⟩
  refine (passes_countUp counter threshold).grow.bind ?_
  rintro _ u₁ c₃ w₃ ⟨hin₁, rfl, hkeep₁, hother, hstack, hholds⟩
  refine Leads.bind (leads_jcc _ _) ?_
  rintro _ u₂ p ⟨hin₂, hkeep₂, hlt, rfl⟩
  have hkeep := (hkeep.trans hkeep₁).trans hkeep₂
  rw [hholds]
  by_cases hcount : (host.addToCounter counter 1 w₂).1 = (threshold.toNat - 1).toUInt64
  · rw [hcount, bne_self_eq_false]
    refine (passes_movImm rfl guest).bind_leads ?_
    rintro _ v c₄ w₄ ⟨rfl, hdi⟩
    refine (hset.passes_invoke hsaved .enqueueRejit (hkeep.trans hdi.keeps) (fun q hq => ?_)
      (hdi.stack.trans hstack) hdi.value rfl).bind_leads fun _ v₁ c₅ w₅ hmid => ?_
    · rw [hdi.other q fun he => hq (he ▸ clobbered_di), hother q hq]
    obtain ⟨hblock₁, hset₁, rfl, -⟩ := hmid
    refine (passes_place skip).mono ?_
    rintro _ v₂ c₆ w₆ ⟨rfl, rfl, hkeep'⟩
    refine stepped_of_effect hdest ?_ (hkeep'.block.trans (hblock₁.trans hblock))
      (hset₁.congr hkeep' rfl (fun _ _ _ => rfl) rfl)
    rw [hstep, hserve.countCall counter guest threshold (c₄.get si), if_pos hcount]
  · -- the branch is taken, and the call is emitted but not made
    rw [bne_iff_ne.mpr hcount]
    refine Leads.bind (leads_idle_asm _ _) ?_
    rintro _ v p ⟨rfl, hin₃, hkeep₃⟩
    refine Leads.bind (leads_idle_callAddress _ _) ?_
    rintro _ v₁ p ⟨rfl, hin₄, hkeep₄⟩
    have hlabels := (((hin₁.trans hin₂).trans hin₃).trans hin₄).labels_size
    refine (leads_place (hskip.trans_le hlabels)
      (hlt.trans_le (hin₃.trans hin₄).size_le)).mono ?_
    rintro _ v₂ p ⟨hkeep₅, rfl⟩
    have hkeep := ((hkeep.trans hkeep₃).trans hkeep₄).trans hkeep₅
    refine ⟨c₃, _, rfl, stepped_of_effect hdest ?_ (hkeep.block.trans hblock)
      (hset.returned hkeep hsaved hother hstack)⟩
    rw [hstep, hserve.countCall counter guest threshold 0, if_neg hcount]

/-! ### All operations -/

/-- The code of an operation does what the operation does. -/
theorem passes_operation (next : Option BlockId)
    (hcomp : Computes host op.inst (IR.Eval.sourceType env.func op) (destType env.func op))
    (hdest : op.inst.hasResult = false → op.dest = none) (hterm : op.inst.isTerminator = false) :
    Passes host code env (operation op next) s c w fun _ =>
      Stepped env native op frame known base s w := by
  unfold operation
  cases hinst : op.inst with
  | copy | not | negate | byteSwap | countLeadingZeros | zeroExtend8 | zeroExtend16 | zeroExtend32
  | signExtend8 | signExtend16 | signExtend32 | truncate =>
    exact h.passes_unary hcomp _ fun _ _ _ _ => by rw [hinst]; rfl
  | add | subtract | multiply | and | or | xor | multiplyHighSigned | multiplyHighUnsigned
  | divideSigned | divideUnsigned | shiftLeft | shiftRightLogical | shiftRightArithmetic
  | rotateRight => exact h.passes_binary hcomp _ fun _ _ _ _ => by rw [hinst]; rfl
  | compare cmp =>
    refine (yields_sourceType op).bind fun ty hty => ?_
    subst hty
    exact h.passes_binary hcomp _ fun _ _ _ _ => by rw [hinst]; rfl
  | select => exact h.passes_select hcomp hinst
  | loadContext field => exact h.passes_loadContext hserve hinst
  | storeContext field => exact h.passes_storeContext hserve hinst (hdest (by rw [hinst]; rfl))
  | load size => exact h.passes_load hserve hinst
  | store | supervisorCall | breakpoint | undefined =>
    refine h.passes_callTwo _ (hdest (by rw [hinst]; rfl)) ?_
    simp only [step, hinst, hserve.store, hserve.supervisorCall, hserve.breakpoint,
      hserve.undefined]
  | readCounter | readFrequency =>
    have hargs : Arguments c [] _ _ := ⟨rfl, rfl⟩
    refine h.passes_callForValue _ hargs rfl ?_
    simp only [step, hinst, hserve.readCounter, hserve.readFrequency]
  | invalidateCacheLine =>
    refine h.passes_callOne _ (hdest (by rw [hinst]; rfl)) fun y => ?_
    simp only [step, hinst, hserve.invalidateLine]
  | countCall => exact h.passes_countEntry hserve hinst (hdest (by rw [hinst]; rfl))
  | phi => exact leads_throw
  | branch | branchIf | dispatch | exit =>
    rw [hinst] at hterm
    cases hterm

end Starts

end Codegen

end Dynarec.Host
