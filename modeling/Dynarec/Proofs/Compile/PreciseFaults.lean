import Dynarec.Proofs.Compile.PhiFree
import Dynarec.Proofs.IR.Preservation
import Dynarec.Proofs.Lift.Faults

/-!
# Precise memory faults

If the environment stops the guest at a load or a store, the function of a block leaves for the
address of the instruction that made the access, and the guest registers are those after the
instructions before it. This holds from construction to the function that code is generated from.
-/

namespace Dynarec

open Lift

namespace IR

/-- What an environment sees of an event when registers are in locals and unused reads of the
counters may be gone. -/
def Event.remembered (tys : GuestReg → Ty) (e : Event) : Option Event :=
  (e.visible tys).bind Event.lasting

section

variable (tys : GuestReg → Ty)

include tys

theorem showsAccesses_visible : ShowsAccesses (Event.visible tys) where
  access q c _ := ⟨_, rfl⟩
  request? e e' h := by
    cases e with
    | request q c =>
      cases h
      rfl
    | put field v => cases field <;> cases h <;> rfl

omit tys in
theorem Event.eq_of_lasting {e e' : Event} (h : e.lasting = some e') : e' = e := by
  cases e with
  | request q c =>
    rw [lasting] at h
    split at h
    · cases h
    · exact (Option.some.inj h).symm
  | put field v => exact (Option.some.inj h).symm

theorem showsAccesses_remembered : ShowsAccesses (Event.remembered tys) where
  access q c hq := by
    have hcounter : q.isCounter = false := by
      cases q <;> first | rfl | cases hq
    simp [Event.remembered, Event.visible, Event.lasting, hcounter]
  request? e e' h := by
    obtain ⟨seen, hseen, hlasting⟩ := Option.bind_eq_some_iff.mp h
    rw [Event.eq_of_lasting hlasting]
    exact (showsAccesses_visible tys).request? e seen hseen

/-- What is remembered is what lasts of what is visible. -/
theorem filterMap_remembered (events : List Event) :
    events.filterMap (Event.remembered tys) =
      (events.filterMap (Event.visible tys)).filterMap Event.lasting :=
  (List.filterMap_filterMap ..).symm

end

end IR

namespace Compilation

open Guest (Block CodeSource Mode Opcode)
open IR (Answers Event Function Leave ShowsAccesses Trace)

/-- How the function of a block was left when an access of the instruction `op` stopped the guest,
after the instructions `before`. -/
structure StoppedAt (answer : Answers) (observe : Event → Option Event) (c : Context)
    (block : Block) (mode : Mode) (options : Lift.Options) (before : List Opcode) (op : Opcode)
    (how : Leave) (w : Trace) : Prop where
  exit : how = .exit op.address
  /-- Nothing was done after the access. -/
  last : w.JustStopped answer observe
  /-- The registers and flags are those that the instructions before leave, which themselves make no
  access that stops the guest; after them there are accesses only. -/
  registers : ∃ n w₀, (function { block with opcodes := before } mode options).program.run
      (answer.host observe) ⟨c, []⟩ n = .left (.dispatch op.address) w₀ ∧
    (w.context.narrow (registerTy mode)).x = (w₀.context.narrow (registerTy mode)).x ∧
    w.context.nzcv = w₀.context.nzcv ∧
    ∃ accesses, w.events.filterMap observe = accesses ++ w₀.events.filterMap observe ∧
      ∀ e ∈ accesses, e.isReading = true
  /-- The instruction makes the accesses, and what follows it has no part in them. -/
  made : ∃ n w₁, (function { block with opcodes := before ++ [op] } mode options).program.run
      (answer.host observe) ⟨c, []⟩ n = .left how w₁ ∧
    w₁.events.filterMap observe = w.events.filterMap observe

/-- The function leaves in every environment. If the environment stops the guest at an access, then
at the instruction that made it. -/
def FaultsPrecisely (observe : Event → Option Event) (block : Block) (mode : Mode)
    (options : Lift.Options) (f : Function) : Prop :=
  ∀ (answer : Answers) (c : Context), ∃ n how w,
    f.program.run (answer.host observe) ⟨c, []⟩ n = .left how w ∧
      (w.stopped answer observe = true → ∃ before op after, block.opcodes = before ++ op :: after ∧
        StoppedAt answer observe c block mode options before op how w)

variable {observe : Event → Option Event} {mode : Mode} {options : Lift.Options}
  {before : List Opcode} {op : Opcode} {block : Block} {f g : Function}

/-- An instruction stands where the ones before it end. -/
theorem limit_before {a : UInt64} {after : List Opcode}
    (h : Block.Consecutive mode a (before ++ op :: after)) (reason : Guest.BlockEnd) :
    (Block.mk a before reason).limit = op.address := by
  change Guest.addressAt a before.length = op.address
  induction before generalizing a with
  | nil =>
    cases h
    exact Guest.addressAt_zero a
  | cons first before ih =>
    cases h with
    | cons w hrest =>
      rw [List.length_cons, Guest.addressAt_succ]
      exact ih hrest

theorem stopped_evalEntry (hshows : ShowsAccesses observe) (answer : Answers) (c : Context)
    (start : UInt64) :
    (evalEntry (answer.host observe) options start ⟨c, []⟩).stopped answer observe = false := by
  have hquiet : Trace.Accessless ⟨c, []⟩
      (evalEntry (answer.host observe) options start ⟨c, []⟩) := by
    unfold evalEntry
    split
    · exact ⟨[.request _ c], rfl, by simp [Event.isAccess, Event.request?, IR.Request.isAccess]⟩
    · exact .refl _
  exact hquiet.stopped_eq hshows

/-- The function of a block, with its registers in the context. -/
theorem faultsPrecisely_function (hshows : ShowsAccesses observe)
    (hblock : Block.Consecutive mode block.start block.opcodes) :
    FaultsPrecisely observe block mode options (function block mode options) := by
  intro answer c
  have hproper := proper_of_consecutive hblock
  have hrun := fun block hproper =>
    @run_function _ (answer.host observe) (fun _ _ _ _ => rfl) block mode hproper options ⟨c, []⟩
  obtain ⟨n, hn⟩ := hrun block hproper
  refine ⟨n, _, _, hn, fun hstopped => ?_⟩
  obtain ⟨before, op, after, w₀, hops, hbefore, hcut, hexit, hreads, hlast⟩ :=
    evalCodes_stopped hshows (stopped_evalEntry hshows answer c block.start) hproper hstopped
  rw [hops] at hproper hblock
  refine ⟨before, op, after, hops, hexit, hlast, ?_, ?_⟩
  · obtain ⟨m, hm⟩ := hrun { block with opcodes := before } fun x hx =>
      hproper x (List.mem_append_left _ hx)
    rw [evalBlock, limit_before hblock block.reason, hbefore] at hm
    obtain ⟨new, hnew, hreading⟩ := hreads.events
    refine ⟨m, w₀, hm, ?_, hreads.nzcv, new.filterMap observe, ?_, fun e he => ?_⟩
    · exact congrArg (fun x : Vector UInt64 32 => Vector.ofFn fun i => x.get i &&& _) hreads.x
    · exact (congrArg (List.filterMap observe) hnew).trans List.filterMap_append
    · obtain ⟨x, hx, hseen⟩ := List.mem_filterMap.mp he
      rw [Event.isReading, hshows.request? x e hseen]
      exact hreading x hx
  · obtain ⟨m, hm⟩ := hrun { block with opcodes := before ++ [op] } fun x hx => hproper x (by
      rcases List.mem_append.mp hx with hx | hx
      · exact List.mem_append_left _ hx
      · exact List.mem_append_right _ (List.mem_singleton.mp hx ▸ (.head _)))
    rw [evalBlock, hcut] at hm
    exact ⟨m, _, hm, rfl⟩

/-! ### The stages -/

/-- Two traces that the environment cannot tell apart, with the same registers and flags. -/
structure Alike (observe : Event → Option Event) (mode : Mode) (w w' : Trace) : Prop where
  events : w'.events.filterMap observe = w.events.filterMap observe
  x : (w'.context.narrow (registerTy mode)).x = (w.context.narrow (registerTy mode)).x
  nzcv : w'.context.nzcv = w.context.nzcv

theorem StoppedAt.alike {answer : Answers} {c : Context} {how : Leave} {w w' : Trace}
    (h : StoppedAt answer observe c block mode options before op how w)
    (halike : Alike observe mode w w') :
    StoppedAt answer observe c block mode options before op how w' := by
  obtain ⟨hexit, hlast, ⟨n, w₀, hrun, hx, hnzcv, haccesses⟩, hmade⟩ := h
  refine ⟨hexit, ?_, ⟨n, w₀, hrun, halike.x.trans hx, halike.nzcv.trans hnzcv, ?_⟩, ?_⟩
  · rwa [Trace.JustStopped, halike.events]
  · rwa [halike.events]
  · rwa [halike.events]

/-- A function that leaves in the same way faults as precisely. -/
theorem FaultsPrecisely.alike (h : FaultsPrecisely observe block mode options f)
    (hsame : ∀ (answer : Answers) (c : Context) n how w,
      f.program.run (answer.host observe) ⟨c, []⟩ n = .left how w →
        ∃ w', g.program.run (answer.host observe) ⟨c, []⟩ n = .left how w' ∧
          Alike observe mode w w') :
    FaultsPrecisely observe block mode options g := by
  intro answer c
  obtain ⟨n, how, w, hrun, hstopped⟩ := h answer c
  obtain ⟨w', hrun', halike⟩ := hsame answer c n how w hrun
  refine ⟨n, how, w', hrun', fun hstopped' => ?_⟩
  rw [Trace.stopped, halike.events] at hstopped'
  obtain ⟨before, op, after, hops, hat⟩ := hstopped hstopped'
  exact ⟨before, op, after, hops, hat.alike halike⟩

/-- The optimizer and the replacement of phis. -/
theorem FaultsPrecisely.sameBehaviour
    (h : FaultsPrecisely (Event.remembered (registerTy mode)) block mode options f)
    (hsame : f.program.SameBehaviour g.program) :
    FaultsPrecisely (Event.remembered (registerTy mode)) block mode options g := by
  refine h.alike fun answer c n how w hrun => ?_
  have hblind : (answer.host (Event.remembered (registerTy mode))).CounterBlind _ :=
    IR.Environment.counterBlind _ fun q c hq => by
      simp [Event.remembered, Event.visible, Event.lasting, hq]
  have hsimilar := hsame _ _ _ hblind ⟨c, []⟩ n
  rw [hrun] at hsimilar
  generalize hrun' : g.program.run _ _ n = out at hsimilar
  cases hsimilar with
  | left hmemory => exact ⟨_, rfl, hmemory.1.symm, by rw [hmemory.2], by rw [hmemory.2]⟩

section Construction

variable {block : Block} {f : Function} (hf : IR.SSA.Constructible f)
  (htys : ∀ e ∈ f.registers, f.program.ty e.2 = registerTy mode e.1)

include hf htys

theorem construct_alike (answer : Answers) (c : Context) (n : Nat) (how : Leave) (w : Trace)
    (hrun : f.program.run (answer.host (Event.visible (registerTy mode))) ⟨c, []⟩ n = .left how w) :
    ∃ w', (IR.SSA.construct f).2.program.run (answer.host (Event.visible (registerTy mode)))
        ⟨c, []⟩ n = .left how w' ∧ Alike (Event.visible (registerTy mode)) mode w w' := by
  have hsame := hf.construct_run_of htys ⟨fun _ => answer⟩ c n
  rw [show f.program.run ((IR.Environment.mk fun _ => answer).host _) ⟨c, []⟩ n = _
    from hrun] at hsame
  change IR.SameOutcome _ _ ((IR.SSA.construct f).2.program.run (answer.host _) _ _) at hsame
  generalize (IR.SSA.construct f).2.program.run _ _ n = out at hsame ⊢
  cases hsame with
  | @left _ _ w' hseen hcontext =>
    refine ⟨w', rfl, hseen.symm, by rw [hcontext], ?_⟩
    simpa only [Context.narrow] using (congrArg Context.nzcv hcontext).symm

theorem FaultsPrecisely.construct
    (h : FaultsPrecisely (Event.visible (registerTy mode)) block mode options f) :
    FaultsPrecisely (Event.visible (registerTy mode)) block mode options
      (IR.SSA.construct f).2 :=
  h.alike (construct_alike hf htys)

/-- An environment that does not see the reads of the counters is one that does and forgets them. -/
theorem FaultsPrecisely.construct_remembered
    (h : FaultsPrecisely (Event.remembered (registerTy mode)) block mode options f) :
    FaultsPrecisely (Event.remembered (registerTy mode)) block mode options
      (IR.SSA.construct f).2 := by
  refine h.alike fun answer c n how w hrun => ?_
  simp only [Answers.host, IR.Environment.host, IR.filterMap_remembered] at hrun ⊢
  obtain ⟨w', hrun', halike⟩ :=
    construct_alike hf htys (fun q events => answer q (events.filterMap Event.lasting)) c n
      how w hrun
  refine ⟨w', hrun', ?_, halike.x, halike.nzcv⟩
  rw [IR.filterMap_remembered, IR.filterMap_remembered, halike.events]

end Construction

/-- If the environment stops the guest at a load or a store of a decoded block, its function leaves
for the address of the instruction that made the access, with the registers and flags that the
instructions before it leave. So do the constructed function, the optimized one and the one that
code is generated from. -/
theorem memory_faults_precise {σ : Type} {source : CodeSource σ} {address : UInt64} {limit : Nat}
    {s s' : σ} {block : Block} (h : Block.decode source mode address limit s = (.ok block, s'))
    (options : Lift.Options) (table : Code.AddressTable) :
    ∃ ssa, (ofBlock block mode options table).ssa = .ok ssa ∧
      FaultsPrecisely (Event.visible (registerTy mode)) block mode options ssa ∧
      FaultsPrecisely (Event.remembered (registerTy mode)) block mode options
        (ssa.optimize options.tier).2 ∧
      FaultsPrecisely (Event.remembered (registerTy mode)) block mode options
        (ofBlock block mode options table).final := by
  obtain ⟨ssa, optimized, n, hssa, -, hopt, -, hstages, -, -⟩ := stages_of_decode h options table
  have hdraft := draft_of_decode h options
  have hcon := constructible_of_decode h options
  have htys := fun e he => (hdraft.registers e he).2
  obtain ⟨hstart, hconsecutive⟩ := Block.decode_consecutive h
  rw [← hstart] at hconsecutive
  have heq : (IR.SSA.construct (function block mode options)).2 = ssa := by
    have hbuilt : ((IR.SSA.construct (function block mode options)).1.map fun _ =>
        (IR.SSA.construct (function block mode options)).2) = .ok ssa := hssa
    rw [hcon.construct_sealed.1] at hbuilt
    exact Except.ok.inj hbuilt
  have hbuilt : FaultsPrecisely (Event.remembered (registerTy mode)) block mode options
      (function block mode options) :=
    faultsPrecisely_function (IR.showsAccesses_remembered _) hconsecutive
  have hremembered := hbuilt.construct_remembered hcon htys
  rw [heq] at hremembered
  refine ⟨ssa, hssa, ?_, ?_, hremembered.sameBehaviour hstages.sameBehaviour⟩
  · rw [← heq]
    exact (faultsPrecisely_function (IR.showsAccesses_visible _) hconsecutive).construct hcon htys
  · rw [hopt]
    exact hremembered.sameBehaviour hstages.optimizes.same

def loadTwo : CodeSource Unit where
  fetch a s :=
    (.ok (if a = 0x1000 then 0xe3a03001 else if a = 0x1004 then 0xe8b10005 else 0xef000000), s)
  isEntry _ _ := false

def stopSecond : Answers :=
  fun _ events => (7, { Context.zero with running := if events.length < 2 then 1 else 0 })

/-- How a function of A32 code leaves within so many blocks, whether it was stopped at an access,
and what two registers hold then. -/
def departure (f : Function) (n : Nat) : Option (Leave × Bool × UInt64 × UInt64) :=
  let observe := Event.visible (registerTy .a32)
  match f.program.run (stopSecond.host observe) ⟨Context.zero.setGpr 1 0x2000, []⟩ n with
  | .left how w => some (how, w.stopped stopSecond observe, w.context.gpr 1, w.context.gpr 3)
  | _ => none

/-- The move was carried out, and the load has neither changed its base nor its registers. -/
theorem memory_faults_precise_loadTwo : ∃ block,
    Block.decode loadTwo .a32 0x1000 8 () = (.ok block, ()) ∧
      departure (IR.SSA.construct (function block .a32 ⟨.fast, 0, 0⟩)).2 8 =
        some (.exit 0x1004, true, 0x2000, 1) ∧
      ∀ table, ∃ ssa, (ofBlock block .a32 ⟨.fast, 0, 0⟩ table).ssa = .ok ssa ∧
        FaultsPrecisely (Event.visible (registerTy .a32)) block .a32 ⟨.fast, 0, 0⟩ ssa := by
  obtain ⟨block, hdecode, hdeparture⟩ : ∃ block,
      Block.decode loadTwo .a32 0x1000 8 () = (.ok block, ()) ∧
        departure (IR.SSA.construct (function block .a32 ⟨.fast, 0, 0⟩)).2 8 =
          some (.exit 0x1004, true, 0x2000, 1) :=
    ⟨_, rfl, by decide +kernel⟩
  refine ⟨block, hdecode, hdeparture, fun table => ?_⟩
  obtain ⟨ssa, hssa, hprecise, -⟩ := memory_faults_precise hdecode ⟨.fast, 0, 0⟩ table
  exact ⟨ssa, hssa, hprecise⟩

end Compilation

end Dynarec
