import Dynarec.Proofs.Host.Terminators
import Dynarec.Proofs.IR.Evaluation
import Dynarec.Proofs.IR.Verified

/-!
# Blocks

The code of a block starts at the label of the block, carries out the operations in order and goes
where the terminator leads. A block is entered with its live locals in their slots, and it hands the
locals that are live after it on in the same way. The code of blocks that follow each other in the
layout follows each other, too.
-/

open Option

theorem Dynarec.IR.Instruction.hasResult_of_isTerminator {inst : Dynarec.IR.Instruction}
    (h : inst.isTerminator = true) : inst.hasResult = false := by
  cases inst <;> first | rfl | cases h

namespace Dynarec.IR.Eval

variable {ω : Type} {f : Function} {native : Native ω} {following c : BlockId}
  {frame : Frame} {w : ω}

def Next.target? (following : BlockId) : Next → Option BlockId
  | fall => some following
  | goto target => some target
  | leave _ => none

theorem target?_ite (target : BlockId) :
    (if target = following then Next.fall else .goto target).target? following = some target := by
  split
  next h => exact congrArg some h.symm
  · rfl

/-- A terminator leads to one of its targets. -/
theorem mem_targets_of_terminate {op : Operation}
    (h : (terminate f frame op following).target? following = some c) : c ∈ op.inst.targets := by
  cases hinst : op.inst with
  | branch target =>
    simp only [terminate, hinst, target?_ite, some.injEq] at h
    exact h ▸ List.mem_singleton_self _
  | branchIf then_ otherwise =>
    have hmem : c = then_ ∨ c = otherwise := by
      simp only [terminate, hinst] at h
      split at h
      · split at h
        · exact .inl (some.inj h).symm
        · rw [target?_ite] at h
          exact .inr (some.inj h).symm
      · rw [target?_ite] at h
        split at h
        · exact .inl (some.inj h).symm
        · exact .inr (some.inj h).symm
    exact Instruction.mem_targets_branchIf.mpr hmem
  | _ =>
    simp only [terminate, hinst] at h
    cases h

theorem mem_targets_of_runOperations {ids : List OpId} (hterm : f.program.Terminated ids)
    (h : (runOperations f native following ids frame w).1.target? following = some c) :
    ∃ id ∈ ids, c ∈ (f.operation id).inst.targets := by
  induction ids generalizing frame w with
  | nil => exact hterm.elim
  | cons id rest ih =>
    cases rest with
    | nil =>
      rw [runOperations_terminator hterm] at h
      exact ⟨id, .head _, mem_targets_of_terminate h⟩
    | cons next rest =>
      rw [runOperations_step hterm.1] at h
      obtain ⟨x, hx, hc⟩ := ih hterm.2 h
      exact ⟨x, .tail _ hx, hc⟩

end Dynarec.IR.Eval

namespace Dynarec.Host

open IR (BlockId Function Instruction OpId OperandId Operation Ty)

def Assembler.start? (a : Assembler) (b : BlockId) : Option Nat :=
  (a.blockLabels.lookup b.index).bind fun l => a.labels.getD l.index none

theorem Assembler.Within.start? {a b : Assembler} (h : a.Within b) {block : BlockId} {i : Nat}
    (hi : a.start? block = some i) : b.start? block = some i := by
  obtain ⟨l, hl, hlabel⟩ := bind_eq_some_iff.mp hi
  exact bind_eq_some_iff.mpr ⟨l, h.blockLabels _ _ hl, h.labels _ _ hlabel⟩

/-! ### Functions that can be lowered -/

/-- The operation has a destination only if it has a value, and the code of pure instructions
computes their value. -/
structure Codegen.Supported {ω : Type} (host : Surroundings ω) (f : Function) (op : Operation) :
    Prop where
  computes : Computes host op.inst (IR.Eval.sourceType f op) (IR.Eval.destType f op)
  dest : op.inst.hasResult = false → op.dest = none

/-- What code generation expects of a function: it passes the checks, it has an entry and branches
lead to blocks, locals are written before they are read and fit into a frame that displacements
reach, and the operations are supported. -/
structure Lowerable {ω : Type} (host : Surroundings ω) (f : Function) : Prop where
  wf : f.WellFormed
  verified : f.verify = .ok ()
  exist : ∀ b c, c ∈ f.successors b → c.index < f.blocks.size
  entry : 0 < f.blocks.size
  defined : f.DefinesBeforeUse
  small : f.localCount ≤ 2 ^ 28
  supported : ∀ b, ∀ id ∈ f.blockOperations b, Codegen.Supported host f (f.operation id)

namespace Lowerable

variable {ω : Type} {host : Surroundings ω} {f : Function} {b : BlockId} {id : OpId} {l : Nat}

theorem terminated (h : Lowerable host f) (hb : b.index < f.blocks.size) :
    f.program.Terminated (f.blockOperations b) :=
  Function.terminated_of_verify h.verified hb

section

variable (h : Lowerable host f) (hb : b.index < f.blocks.size) (hid : id ∈ f.blockOperations b)
  {target : BlockId} (htarget : target ∈ (f.operation id).inst.targets)

include h hb hid htarget

theorem mem_successors : target ∈ f.successors b := by
  rw [h.wf.successors_eq]
  exact (h.terminated hb).mem_successors hid htarget

/-- The target of a branch is the block that is laid out next if it is the block that follows. -/
theorem next_eq_some_iff :
    (if b.index + 1 < f.blocks.size then some ⟨b.index + 1⟩ else none) = some target ↔
      target = ⟨b.index + 1⟩ := by
  have hexist := h.exist b target (h.mem_successors hb hid htarget)
  constructor
  · intro heq
    split at heq
    · exact (some.inj heq).symm
    · cases heq
  · rintro rfl
    exact if_pos hexist

end

/-- Control goes from a block to one of its successors. -/
theorem mem_successors_of_runOperations (h : Lowerable host f) (hb : b.index < f.blocks.size)
    {native : IR.Native ω} {following target : BlockId} {frame : IR.Frame} {w : ω}
    (hrun : (IR.Eval.runOperations f native following (f.blockOperations b) frame w).1.target?
      following = some target) : target ∈ f.successors b := by
  obtain ⟨id, hid, hmem⟩ := IR.Eval.mem_targets_of_runOperations (h.terminated hb) hrun
  exact h.mem_successors hb hid hmem

end Lowerable

namespace Codegen

open Exec (Reaches)

variable {ω : Type} {host : Surroundings ω} {native : IR.Native ω} {code : Assembler} {env : Env}
  {b following : BlockId} {frame : IR.Frame} {base : UInt64} {w : ω} {s t u : State} {c : Cpu}
  {known : Nat → Prop}

/-! ### The operations of a block -/

theorem Settled.unlockAll {σ : Nat → UInt64} (h : Settled env σ known base s c) :
    Settled env σ known base { s with regs := s.regs.unlockAll } c :=
  { h with valid := h.valid.unlockAll }

/-- Control has gone where the operations of a block lead. -/
def Ran (host : Surroundings ω) (native : IR.Native ω) (code : Assembler) (env : Env)
    (b following : BlockId) (ids : List OpId) (frame : IR.Frame) (base : UInt64) (w : ω) (t : State)
    (q : Exec.Status ω) : Prop :=
  ∃ next frame' w', IR.Eval.runOperations env.func native following ids frame w =
      (next, frame', w') ∧
    frame'.size = env.func.localCount ∧ Goes host code env b frame' base w' next t q

/-- The code of operations that end in a terminator. It may count on the locals that the operations
read before they write them, and on those that are live after the block and that the operations do
not write. -/
theorem leads_operations (hn : env.func.localCount ≤ 2 ^ 28) (hserve : Serves host native)
    {next : Option BlockId} {ids : List OpId}
    (hops : ∀ id ∈ ids, Supported host env.func (env.func.operation id))
    (hrange : ∀ id ∈ ids, DestInRange env.func (env.func.operation id))
    (hnext : ∀ id ∈ ids, ∀ target ∈ (env.func.operation id).inst.targets,
      next = some target ↔ target = following)
    (hterm : env.func.program.Terminated ids)
    (hreads : ∀ l, env.func.ReadsFirst l ids → known l)
    (hlive : ∀ l, (env.liveness.after s.block).contains l = true →
      known l ∨ ∃ id ∈ ids, env.func.Writes id l)
    (hframe : frame.size = env.func.localCount)
    (h : Settled env (fun k => frame.getD k 0) known base s c) :
    Leads host code env (ids.forM fun id => do
        operation (env.func.operation id) next
        modify fun s => { s with regs := s.regs.unlockAll }) s (.here s.asm.size c w) fun _ t q =>
      Ran host native code env s.block following ids frame base w t q := by
  induction ids generalizing known frame s c w with
  | nil => exact hterm.elim
  | cons id rest ih =>
    have hsources : KnowsSources env.func known (env.func.operation id) :=
      fun o ho l hl => hreads l (.inl ⟨o, ho, hl⟩)
    have hstarts : Starts env (env.func.operation id) frame known base s c :=
      ⟨hn, hframe, hsources, hrange id (.head _), h⟩
    cases rest with
    | nil =>
      -- a terminator writes nothing, so what is live after the block is known
      have hafter : ∀ l, (env.liveness.after s.block).contains l = true → known l := by
        intro l hl
        refine (hlive l hl).resolve_right ?_
        rintro ⟨x, hx, d, hd, -⟩
        obtain rfl := List.mem_singleton.mp hx
        rw [(hops x (.head _)).dest (Instruction.hasResult_of_isTerminator hterm)] at hd
        cases hd
      have hone : Leads host code env (do
          operation (env.func.operation id) next
          modify fun s => { s with regs := s.regs.unlockAll }) s (.here s.asm.size c w)
          fun _ t q => Ran host native code env s.block following [id] frame base w t q := by
        refine Leads.bind (hstarts.leads_terminator hafter (hnext id (.head _)) hterm)
          fun _ t q hq => leads_modify ?_
        exact ⟨_, _, _, IR.Eval.runOperations_terminator hterm, hframe, hq⟩
      exact hone.bind fun _ t q hq => leads_pure hq
    | cons second rest =>
      have hfront : (env.func.operation id).inst.isTerminator = false := hterm.1
      have hone : Passes host code env (do
          operation (env.func.operation id) next
          modify fun s => { s with regs := s.regs.unlockAll }) s c w fun _ t c' w' =>
            Stepped env native (env.func.operation id) frame known base s w t c' w' := by
        refine (hstarts.passes_operation hserve next (hops id (.head _)).computes
          (hops id (.head _)).dest hfront).bind fun _ t c' w' hstep => leads_modify ?_
        exact ⟨c', w', rfl, hstep.world, hstep.block, hstep.size, hstep.settled.unlockAll⟩
      refine hone.bind_leads fun _ t c' w' hstep => ?_
      have hrest := ih (w := w')
        (fun x hx => hops x (.tail _ hx))
        (fun x hx => hrange x (.tail _ hx))
        (fun x hx => hnext x (.tail _ hx)) hterm.2 ?_ ?_ (hstep.size.trans hframe) hstep.settled
      · rw [hstep.block] at hrest
        refine hrest.mono ?_
        rintro _ u q ⟨go, frame', w'', hrun, hsize, hgoes⟩
        exact ⟨go, frame', w'', by rw [IR.Eval.runOperations_step hfront, ← hstep.world, hrun],
          hsize, hgoes⟩
      · intro l hl
        by_cases hw : env.func.Writes id l
        · exact .inr hw
        · exact .inl (hreads l (.inr ⟨hw, hl⟩))
      · intro l hl
        rw [hstep.block] at hl
        rcases hlive l hl with hknown | ⟨x, hx, hw⟩
        · exact .inl (.inl hknown)
        · rcases List.mem_cons.mp hx with rfl | hx
          · exact .inl (.inr hw)
          · exact .inr ⟨x, hx, hw⟩

/-! ### Block starts -/

/-- A block has begun: no register is taken, and the label of the block stands here. -/
structure Begun (env : Env) (b : BlockId) (s u : State) : Prop where
  block : u.block = b
  regs : u.regs = s.regs.reset
  dirty : u.dirty = .ofCapacity env.func.localCount
  stale : u.stale = none
  start : u.asm.start? b = some u.asm.size
  opened : u.asm.openLabel = some u.asm.size
  size : u.asm.size = s.asm.closeLabel.size

theorem begun_of_run (hreg : s.asm.Registered) (hrun : beginBlock b env s = (.ok (), u)) :
    Begun env b s u := by
  let s' : State :=
    { s with
      block := b
      regs := s.regs.reset
      dirty := .ofCapacity env.func.localCount
      stale := none
      asm := (s.asm.blockLabel b.index).2 }
  have hplace : (beginBlock b env s) = asm (Asm.place (s.asm.blockLabel b.index).1) env s' := rfl
  rw [hplace, run_asm, Asm.run_place] at hrun
  have hlabel := s.asm.lookup_blockLabel b.index
  have hlt : (s.asm.blockLabel b.index).1.index < s'.asm.closeLabel.labels.size :=
    ((s.asm.within_blockLabel b.index).registered hreg _ _ hlabel).trans_le
      s'.asm.within_closeLabel.labels_size
  have hsize : s'.asm.closeLabel.size = s.asm.closeLabel.size := by
    rw [Assembler.size_closeLabel, Assembler.size_closeLabel, s.asm.size_blockLabel,
      s.asm.openLabel_blockLabel]
  have hlookup := s'.asm.within_closeLabel.blockLabels _ _ hlabel
  generalize s'.asm.closeLabel = a at hrun hlt hsize hlookup
  by_cases hset : (a.labels.getD (s.asm.blockLabel b.index).1.index none).isSome = true
  · rw [if_pos hset] at hrun
    cases hrun
  · rw [if_neg hset] at hrun
    cases hrun
    refine ⟨rfl, rfl, rfl, rfl, ?_, rfl, hsize⟩
    simp [Assembler.start?, hlookup, hlt, Assembler.size]

theorem passes_beginBlock (b : BlockId) :
    Passes host code env (beginBlock b) s c w fun _ _ c' w' => c' = c ∧ w' = w := by
  refine leads_read_bind (leads_modify_bind ?_)
  refine (passes_blockLabel b.index).bind ?_
  rintro l t c' w' ⟨rfl, rfl, -⟩
  refine (passes_place l).mono fun _ u c' w' hmid => ?_
  exact ⟨hmid.2.1, hmid.1⟩

def Env.entryBytes (env : Env) (b : BlockId) : UInt64 :=
  if b = Function.entry then env.frameBytes else 0

theorem passes_enterFrame (b : BlockId) : Passes host code env (enterFrame b) s c w fun _ t c' w' =>
      w' = w ∧ Keeps s t ∧ c'.get Gp.sp = c.get Gp.sp - env.entryBytes b ∧ c'.stack = c.stack := by
  unfold enterFrame Env.entryBytes
  split
  · refine yields_frameSize.bind fun n hn => ?_
    refine passes_emit (b := s.asm.push (.aluImm .sub .i64 Gp.sp n)) rfl rfl rfl
      ⟨rfl, keeps_asm s _, ?_, rfl⟩
    refine (Cpu.get_set_self ..).trans ?_
    rw [IR.Ty.and_i64_mask, ← hn]
  · exact passes_pure ⟨rfl, ⟨rfl, rfl, rfl, rfl⟩, by simp, rfl⟩

theorem Begun.settled {σ : Nat → UInt64} (h : Begun env b s u)
    (halloc : s.regs.allocatable = allocatableSet) (hk : Keeps u t) (hsp : c.get Gp.sp = base)
    (hrange : ∀ l, known l → l < env.func.localCount)
    (hslots : ∀ l, known l → readSlot c base l = σ l) : Settled env σ known base t c := by
  have hregs : t.regs = .ofSet allocatableSet := by
    rw [hk.regs, h.regs, RegisterFile.reset, halloc]
  have hfree : ∀ g, t.regs.owners.get g = none := fun g => by simp [hregs, RegisterFile.ofSet]
  have hclean : ∀ l, t.dirty.contains l = false := fun l => by simp [hk.dirty, h.dirty]
  exact {
    valid := hregs ▸ RegisterFile.valid_ofSet _
    allocatable := by rw [hregs]; rfl
    sp := hsp
    owner_lt := by simp [hfree]
    known_lt := hrange
    held := by simp [hfree]
    unique := by simp [hfree]
    saved := fun l hl _ => hslots l hl
    dirty_held := by simp [hclean]
    dirty_out := by simp [hclean]
    fits := by rw [hk.dirty, h.dirty]; exact IR.LocalSet.fits_ofCapacity _
    owner_known := by simp [hfree]
    stale := hk.stale.trans h.stale }

/-! ### Code of blocks -/

def Entered (env : Env) (b : BlockId) (frame : IR.Frame) (c : Cpu) : Prop :=
  ∀ l, (env.liveness.before b).contains l = true → readSlot c (c.get Gp.sp) l = frame.getD l 0

section

variable (hf : Lowerable host env.func) (henv : env.liveness = .compute env.func)
  (hb : b.index < env.func.blocks.size)

include hf henv

/-- The entry block expects nothing of the frame it makes. -/
theorem not_live_entry (l : Nat) : (env.liveness.before Function.entry).contains l = false := by
  rw [← Bool.not_eq_true, henv]
  exact fun hl => hf.defined l (IR.Liveness.exposed_compute hf.wf.localsInRange hl)

include hb

theorem live_of_readsFirst {l : Nat} (h : env.func.ReadsFirst l (env.func.blockOperations b)) :
    (env.liveness.before b).contains l = true := by
  rw [henv, (IR.Liveness.flow_compute hb).1]
  exact IR.Liveness.contains_inflow.mpr
    (.inr ((IR.BlockEffect.contains_uses hf.wf.localsInRange).mpr h))

theorem live_or_written {l : Nat} (h : (env.liveness.after b).contains l = true) :
    (env.liveness.before b).contains l = true ∨
      ∃ id ∈ env.func.blockOperations b, env.func.Writes id l := by
  by_cases hw : ∃ id ∈ env.func.blockOperations b, env.func.Writes id l
  · exact .inr hw
  · rw [henv] at h ⊢
    rw [(IR.Liveness.flow_compute hb).2] at h
    rw [(IR.Liveness.flow_compute hb).1]
    refine .inl (IR.Liveness.contains_inflow.mpr (.inl ⟨h, ?_⟩))
    rw [← Bool.not_eq_true, IR.BlockEffect.contains_defs hf.wf.localsInRange]
    exact hw

/-- The code of a block after its label. -/
theorem leads_body (hserve : Serves host native) {next : Option BlockId}
    (hnext : next = if b.index + 1 < env.func.blocks.size then some ⟨b.index + 1⟩ else none)
    (hbegun : Begun env b s u) (halloc : s.regs.allocatable = allocatableSet)
    (hframe : frame.size = env.func.localCount) (hslots : Entered env b frame c) :
    Leads host code env (do enterFrame b; lowerOperations b next) u (.here u.asm.size c w)
      fun _ t q => Ran host native code env b ⟨b.index + 1⟩ (env.func.blockOperations b) frame
        (c.get Gp.sp - env.entryBytes b) w t q := by
  refine (passes_enterFrame b).bind_leads ?_
  rintro _ t c' w' ⟨rfl, hk, hsp, hstack⟩
  have hrange : ∀ l, (env.liveness.before b).contains l = true → l < env.func.localCount := by
    intro l hl
    rw [henv] at hl
    exact (IR.Liveness.exposed_compute hf.wf.localsInRange hl).lt hf.wf.localsInRange
  have hsaved : ∀ l, (env.liveness.before b).contains l = true →
      readSlot c' (c.get Gp.sp - env.entryBytes b) l = frame.getD l 0 := by
    intro l hl
    by_cases hentry : b = Function.entry
    · rw [hentry, not_live_entry hf henv] at hl
      cases hl
    · rw [readSlot, hstack, Env.entryBytes, if_neg hentry, UInt64.sub_zero]
      exact hslots l hl
  have hsettled := hbegun.settled halloc hk hsp hrange hsaved
  have hblock : t.block = b := hk.block.trans hbegun.block
  have hops : Leads host code env ((env.func.blockOperations b).forM fun id => do
      operation (env.func.operation id) next
      modify fun s => { s with regs := s.regs.unlockAll }) t (.here t.asm.size c' w') fun _ u q =>
        Ran host native code env t.block ⟨b.index + 1⟩ (env.func.blockOperations b) frame
          (c.get Gp.sp - env.entryBytes b) w' u q := by
    refine leads_operations hf.small hserve (hf.supported b) (fun id hid d hd l hl => ?_)
      (fun id hid target htarget => ?_) (hf.terminated hb) (fun l => live_of_readsFirst hf henv hb)
      (fun l hl => live_or_written hf henv hb (hblock ▸ hl)) hframe hsettled
    · exact hf.wf.localsInRange b id hid l (.inr ⟨d, hd, hl⟩)
    · exact hnext ▸ hf.next_eq_some_iff hb hid htarget
  rw [hblock] at hops
  refine leads_read_bind ?_
  dsimp only
  split
  · intro _ _ hrun
    cases hrun
  · exact hops

end

section

variable (host native code env following frame base w)

/-- Control that comes to the start of a block goes through its code to where the block leads. -/
def BlockCode (b : BlockId) (start : Nat) (t : State) : Prop :=
  ∀ frame c w, frame.size = env.func.localCount → Entered env b frame c →
    ∃ q, Reaches host code (.here start c w) q ∧
      Ran host native code env b ⟨b.index + 1⟩ (env.func.blockOperations b) frame
        (c.get Gp.sp - env.entryBytes b) w t q

/-- The code of blocks in order: the first starts at `start`, and control that comes to `position`
goes on there. -/
inductive Laid : (start position : Nat) → List BlockId → Prop
  | nil {start position : Nat} : Laid start position []
  | cons {start position next : Nat} {b : BlockId} {rest : List BlockId} {t : State}
      (hstart : code.start? b = some start) (hle : position ≤ start)
      (henter : ∀ c w, Reaches host code (.here position c w) (.here start c w))
      (hbody : BlockCode host native code env b start t) (hstop : start ≤ t.asm.size)
      (hnext : start < next) (hrest : Laid next t.asm.size rest) : Laid start position (b :: rest)

/-- Control has come from the code of a block to the start of a successor, or it has left. -/
inductive Arrives : IR.Eval.Next → Exec.Status ω → Prop
  | block {next : IR.Eval.Next} {q : Exec.Status ω} {target : BlockId} {j : Nat} {c : Cpu}
      (htarget : next.target? following = some target)
      (hexist : target.index < env.func.blocks.size) (hstart : code.start? target = some j)
      (hsp : c.get Gp.sp = base) (henter : Entered env target frame c)
      (hresume : ∀ fuel, Exec.resume host code fuel q = Exec.run host code fuel j c w)
      (htrail : ∀ fuel, Exec.trailFrom host code fuel q = Exec.trail host code fuel j c w) :
      Arrives next q
  | gone {how : IR.Leave} {i : Nat} {way : Departure} {c : Cpu} {w' : ω}
      (hsp : c.get Gp.sp = base + env.frameBytes) (hleft : Left host w how way (c.get Gp.ax) w') :
      Arrives (.leave how) (.gone i way c w')

end

/-- Lowering lays the code of blocks out in order. -/
theorem laid_of_run (hf : Lowerable host env.func) (henv : env.liveness = .compute env.func)
    (hserve : Serves host native) {bs : List BlockId} {n : Nat}
    (hbs : ∀ k b, bs[k]? = some b → b.index = n + k) (hlen : n + bs.length = env.func.blocks.size)
    (hreg : s.asm.Registered) (halloc : s.regs.allocatable = allocatableSet)
    (hrun : lowerBlocks bs env s = (.ok (), u))
    (hcode : u.asm.Within code) :
    Laid host native code env s.asm.closeLabel.size s.asm.size bs := by
  induction bs generalizing n s with
  | nil => exact .nil
  | cons b rest ih =>
    obtain ⟨_, t, hblock, hrest⟩ := ok_of_bind hrun
    obtain ⟨_, v, hbegin, hbody⟩ := ok_of_bind hblock
    have hsv := Grows.within env (beginBlock b) s
    have hvt := Grows.within env (do enterFrame b; lowerOperations b rest.head?) v
    have htu := Grows.within env (lowerBlocks rest) t
    have hkeep := (Grows.step env (lowerBlock b rest.head?) s).allocatable
    rw [hbegin] at hsv
    rw [hbody] at hvt
    rw [hrest] at htu
    rw [hblock] at hkeep
    have hbegun := begun_of_run hreg hbegin
    have hindex : b.index = n := hbs 0 b rfl
    have hlt : b.index < env.func.blocks.size := by
      rw [← hlen, List.length_cons]
      omega
    have hnext : rest.head? = if b.index + 1 < env.func.blocks.size
        then some ⟨b.index + 1⟩ else none := by
      cases rest with
      | nil => rw [if_neg (by simp only [List.length_cons, List.length_nil] at hlen; omega)]; rfl
      | cons second rest =>
        rw [if_pos (by simp only [List.length_cons] at hlen; omega), hindex]
        exact congrArg some (congrArg BlockId.mk (hbs 1 second rfl))
    have hin := hvt.trans (htu.trans hcode)
    rw [← hbegun.size]
    refine .cons (hin.start? hbegun.start) hsv.size_le (fun c w => ?_)
      (fun frame c w hframe hslots => ?_) hvt.size_le (hvt.size_lt_closeLabel hbegun.opened)
      (ih (n := n + 1) (fun k x hx => ?_) ?_ ?_ (hkeep.trans halloc) hrest)
    · obtain ⟨q, hq, c', w', rfl, rfl, rfl⟩ := passes_beginBlock b _ _ hbegin hin
      exact hq
    · exact leads_body hf henv hlt hserve hnext hbegun halloc hframe hslots _ _ hbody
        (htu.trans hcode)
    · rw [hbs (k + 1) x hx]
      omega
    · rw [← hlen, List.length_cons]
      omega
    · exact hvt.registered (hsv.registered hreg)

namespace Laid

variable {start position i n k j : Nat} {bs : List BlockId} {d : BlockId}

theorem le_start (h : Laid host native code env start position bs) (hk : bs[k]? = some b)
    (hi : code.start? b = some i) : start ≤ i ∧ position ≤ i := by
  induction h generalizing k with
  | nil => cases hk
  | cons hstart hle _ _ hstop hnext _ ih =>
    cases k with
    | zero =>
      cases hk
      cases hstart.symm.trans hi
      exact ⟨le_rfl, hle⟩
    | succ k =>
      obtain ⟨hstart', hle'⟩ := ih hk
      omega

/-- The code of a block lies before that of later blocks, and control that comes to its end goes on
to the next block. -/
theorem block (h : Laid host native code env start position bs) (hk : bs[k]? = some b) :
    ∃ i t, code.start? b = some i ∧ BlockCode host native code env b i t ∧
      (∀ j d n, k < j → bs[j]? = some d → code.start? d = some n → i < n ∧ t.asm.size ≤ n) ∧
      ∀ d, bs[k + 1]? = some d → ∃ n, code.start? d = some n ∧
        ∀ c w, Reaches host code (.here t.asm.size c w) (.here n c w) := by
  induction h generalizing k with
  | nil => cases hk
  | @cons start _ _ _ rest t hstart _ _ hbody _ hnext hrest ih =>
    cases k with
    | zero =>
      cases hk
      refine ⟨start, t, hstart, hbody, fun j d n hj hd hn => ?_, fun d hd => ?_⟩
      · cases j with
        | zero => exact absurd hj (Nat.lt_irrefl 0)
        | succ j =>
          obtain ⟨hle, hstop⟩ := hrest.le_start hd hn
          exact ⟨hnext.trans_le hle, hstop⟩
      · cases hrest with
        | nil => cases hd
        | cons hsecond _ henter =>
          cases hd
          exact ⟨_, hsecond, henter⟩
    | succ k =>
      obtain ⟨i, t, hi, hcode, hlater, hnext⟩ := ih hk
      refine ⟨i, t, hi, hcode, fun j d n hj hd hn => ?_, hnext⟩
      cases j with
      | zero => exact absurd hj (Nat.not_lt_zero _)
      | succ j => exact hlater j d n (Nat.lt_of_succ_lt_succ hj) hd hn

end Laid

theorem getElem?_blockIds {f : Function} (hb : b.index < f.blocks.size) :
    f.blockIds[b.index]? = some b := by
  simp [Function.blockIds, hb]

theorem Laid.start_lt (h : Laid host native code env 0 0 env.func.blockIds) {d : BlockId}
    {i n : Nat} (hlt : b.index < d.index) (hd : d.index < env.func.blocks.size)
    (hi : code.start? b = some i) (hn : code.start? d = some n) : i < n := by
  obtain ⟨i', _, hi', -, hlater, -⟩ := h.block (getElem?_blockIds (hlt.trans hd))
  cases hi.symm.trans hi'
  exact (hlater d.index d n hlt (getElem?_blockIds hd) hn).1

theorem Handed.entered {target : BlockId} (h : Handed env b frame base c)
    (henv : env.liveness = .compute env.func) (hb : b.index < env.func.blocks.size)
    (htarget : target ∈ env.func.successors b) : Entered env target frame c := by
  intro l hl
  rw [h.sp]
  refine h.saved l ?_
  rw [henv] at hl ⊢
  exact (IR.Liveness.contains_after hb).mpr ⟨target, htarget, hl⟩

/-- A run through the code of a block. It stays before the code of later blocks. -/
theorem Laid.leads_block (h : Laid host native code env 0 0 env.func.blockIds)
    (hf : Lowerable host env.func) (henv : env.liveness = .compute env.func)
    (hb : b.index < env.func.blocks.size) {i : Nat} (hi : code.start? b = some i)
    (hframe : frame.size = env.func.localCount) (henter : Entered env b frame c) :
    ∃ next frame' w' q, IR.Eval.runOperations env.func native ⟨b.index + 1⟩
        (env.func.blockOperations b) frame w = (next, frame', w') ∧
      frame'.size = env.func.localCount ∧ Reaches host code (.here i c w) q ∧ i < q.edge ∧
      (∀ d n, b.index < d.index → d.index < env.func.blocks.size → code.start? d = some n →
        q.edge ≤ n) ∧
      Arrives host code env ⟨b.index + 1⟩ frame' (c.get Gp.sp - env.entryBytes b) w' next q := by
  obtain ⟨i', t, hi', hcode, hlater, hnext⟩ := h.block (getElem?_blockIds hb)
  cases hi.symm.trans hi'
  obtain ⟨q, hq, next, frame', w', hrun, hframe', hgoes⟩ := hcode frame c w hframe henter
  have hsucc : ∀ target, next.target? ⟨b.index + 1⟩ = some target →
      target ∈ env.func.successors b := by
    intro target htarget
    exact hf.mem_successors_of_runOperations hb (by rw [hrun]; exact htarget)
  have hstop : ∀ {k} d n, k < t.asm.size → b.index < d.index → d.index < env.func.blocks.size →
      code.start? d = some n → k + 1 ≤ n := fun d n hk hlt hd hn =>
    Nat.le_trans hk (hlater d.index d n hlt (getElem?_blockIds hd) hn).2
  cases next with
  | fall =>
    obtain ⟨c', hhanded, rfl⟩ := hgoes
    have htarget := hsucc ⟨b.index + 1⟩ rfl
    have hexist := hf.exist b _ htarget
    obtain ⟨n, hn, hland⟩ := hnext ⟨b.index + 1⟩ (getElem?_blockIds hexist)
    refine ⟨.fall, frame', w', _, hrun, hframe', hq.trans (hland c' w'),
      h.start_lt (Nat.lt_succ_self _) hexist hi hn, fun d m hlt hd hm => ?_,
      .block rfl hexist hn hhanded.sp (hhanded.entered henv hb htarget) (fun _ => rfl) fun _ => rfl⟩
    -- the next block starts where control is, later blocks further on
    rcases (Nat.succ_le_of_lt hlt).lt_or_eq with hfar | hnear
    · exact (h.start_lt hfar hd hn hm).le
    · have hd : d = ⟨b.index + 1⟩ := congrArg BlockId.mk hnear.symm
      rw [hd, hn] at hm
      exact (some.inj hm).le
  | goto target =>
    obtain ⟨k, l, c', hhanded, hk, hl, rfl⟩ := hgoes
    have htarget := hsucc target rfl
    have hexist := hf.exist b _ htarget
    obtain ⟨n, -, hn, -⟩ := h.block (getElem?_blockIds hexist)
    have hlabel : code.labels.getD l.index none = some n := by
      simpa [Assembler.start?, hl] using hn
    refine ⟨.goto target, frame', w', _, hrun, hframe', hq, hq.lt_edge (by simp),
      fun d m => hstop d m hk, .block rfl hexist hn hhanded.sp (hhanded.entered henv hb htarget)
        (fun _ => ?_) fun _ => ?_⟩
    · rw [Exec.resume, hlabel, bind_some]
    · rw [Exec.trailFrom, hlabel, map_some, getD_some]
  | leave how =>
    obtain ⟨k, way, c', w'', hk, rfl, hsp, hleft⟩ := hgoes
    exact ⟨.leave how, frame', w', _, hrun, hframe', hq, hq.lt_edge (by simp),
      fun d m => hstop d m hk, .gone hsp hleft⟩

end Codegen

end Dynarec.Host
