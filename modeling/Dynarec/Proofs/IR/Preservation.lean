import Dynarec.Proofs.IR.ConstructedForm
import Dynarec.Proofs.IR.Optimizer

/-!
# What the passes preserve

Construction keeps what the host sees of a function whose registers live in the context: the
requests and the stores to other fields, and the registers themselves wherever the host may look at
them. They are compared in the bits of the type they are used at, since the other bits of a field
are lost when a register is written back. The optimizer keeps all of it but unused reads of the
counters.
-/

namespace Dynarec.IR

open List SSA

/-! ### Checks on a given function -/

namespace Program

instance decidableTerminated (p : Program) : DecidablePred p.Terminated
  | [] => .isFalse id
  | [id] => inferInstanceAs (Decidable ((p.stmt id).inst.isTerminator = true))
  | id :: next :: rest =>
    have := p.decidableTerminated (next :: rest)
    inferInstanceAs (Decidable
      ((p.stmt id).inst.isTerminator = false ∧ p.Terminated (next :: rest)))

def admits (p : Program) (s : Stmt) : Bool :=
  (match s.inst with
    | .phi | .loadContext (.register _) | .storeContext (.register _) => false
    | _ => true) &&
  match s.dest with
  | none => true
  | some d =>
    (match p.kind d, s.inst with
      | .register _, .loadContext _ => false
      | .register _, inst => inst.hasValue
      | _, _ => true) &&
    match s.inst, s.sources[0]? with
    | .copy, some o => p.ty o == p.ty d
    | _, _ => true

theorem admissible_of_admits {p : Program} {s : Stmt} (h : p.admits s = true) : p.Admissible s := by
  obtain ⟨inst, dest, sources⟩ := s
  simp only [admits, Bool.and_eq_true] at h
  obtain ⟨hinst, hdest⟩ := h
  refine ⟨?_, ?_, ?_, ?_, ?_⟩
  · rintro rfl
    cases hinst
  · rintro r rfl
    cases hinst
  · rintro r rfl
    cases hinst
  · rintro d r rfl hkind
    simp only [hkind, Bool.and_eq_true] at hdest
    refine ⟨?_, ?_⟩
    · cases inst <;> first | exact hdest.1 | cases hdest.1
    · rintro field rfl
      cases hdest.1
  · rintro rfl d o rfl ho
    simp only [Bool.and_eq_true] at hdest
    simp only [ho, beq_iff_eq] at hdest
    exact hdest.2

end Program

namespace Function

def pushAll (f : Function) (ops : List (BlockId × Stmt)) : Function :=
  ops.foldl (fun f e => (f.pushBack e.1 e.2.inst e.2.dest e.2.sources).2) f

theorem WellFormed.pushAll {f : Function} (h : f.WellFormed) {ops : List (BlockId × Stmt)}
    (hops : ∀ e ∈ ops, e.1.index < f.blocks.size ∧ e.2.sources.length ≤ maxSources ∧
      (∀ o ∈ e.2.sources, o.index < f.operands.size) ∧
      ∀ d ∈ e.2.dest, d.index < f.operands.size) : (f.pushAll ops).WellFormed := by
  induction ops generalizing f with
  | nil => exact h
  | cons e ops ih =>
    obtain ⟨hb, hlen, hsources, hdest⟩ := hops e (.head _)
    have hpush := h.inserted_pushBack e.2.inst hb hlen hsources hdest
    refine ih hpush.wf fun e' he' => ?_
    rw [hpush.pools.blocks, hpush.pools.operands]
    exact hops e' (.tail _ he')

/-- A function without operations: some registers, constants and locals, in this order, and some
blocks besides the entry. -/
def frame (registers : List (GuestReg × Ty)) (constants : List (UInt64 × Ty)) (locals : List Ty)
    (blocks : Nat) : Function :=
  let f := registers.foldl (fun f e => (f.register e.1 e.2).2) (ofAddress 0x1000)
  let f := constants.foldl (fun f e => (f.constant e.1 e.2).2) f
  let f := locals.foldl (fun f ty => (f.newLocal ty).2) f
  blocks.repeat (fun f => f.addBlock.2) f

theorem wf_frame (registers : List (GuestReg × Ty)) (constants : List (UInt64 × Ty))
    (locals : List Ty) (blocks : Nat) : (frame registers constants locals blocks).WellFormed := by
  have hregisters := List.foldlRecOn (motive := WellFormed) registers _ (wf_ofAddress 0x1000)
    fun _ h e _ => (h.register e.1 e.2).1
  have hconstants := List.foldlRecOn (motive := WellFormed) constants _ hregisters
    fun _ h e _ => (h.constant e.1 e.2).1
  have hlocals := List.foldlRecOn (motive := WellFormed) locals _ hconstants
    fun _ h ty _ => h.newLocal ty
  induction blocks with
  | zero => exact hlocals
  | succ blocks ih => exact ih.addBlock

end Function

/-- What construction expects, looked up block by block. -/
theorem SSA.Constructible.of_blocks {f : Function} (h : f.WellFormed) (hentry : 0 < f.blocks.size)
    (hblocks : ∀ b ∈ f.blockIds, Function.entry ∉ f.program.successors b ∧
      (∀ c ∈ f.program.successors b, c.index < f.blocks.size) ∧
      (f.computePredecessors.predecessors b).length ≤ maxSources ∧
      f.program.Terminated (f.program.code b) ∧
      ∀ id ∈ f.program.code b, f.program.admits (f.program.stmt id) = true)
    (hregisters : ∀ e ∈ f.registers, e.1.Valid ∧
      (f.program.ty e.2).mask &&& e.1.width = (f.program.ty e.2).mask) : Constructible f := by
  have hids : ∀ {b : BlockId}, b.index < f.blocks.size → b ∈ f.blockIds :=
    Function.mem_blockIds.mpr
  refine ⟨h, hentry, fun b hb => ?_, fun b c hc => ?_, fun b => ?_, fun b hb => ?_,
    fun b id hid => ?_, fun e he => (hregisters e he).1, fun e he => (hregisters e he).2⟩
  · exact (hblocks b (hids (h.lt_of_mem_successors hb))).1 hb
  · exact (hblocks b (hids (h.lt_of_mem_successors hc))).2.1 c hc
  · by_cases hb : b.index < f.blocks.size
    · exact (hblocks b (hids hb)).2.2.1
    · rw [Function.predecessors_computePredecessors, if_neg hb]
      exact Nat.zero_le _
  · exact (hblocks b (hids hb)).2.2.2.1
  · exact Program.admissible_of_admits ((hblocks b (hids (h.lt_blocks hid))).2.2.2.2 id hid)

/-! ### Construction -/

namespace SSA

/-- Construction succeeds and leaves no register behind. In every environment the result makes the
same requests and stores to other fields as the function did with its registers in the context, it
takes the same way and leaves in the same manner, and wherever the host may look at the registers
they are the same in the bits of their types. -/
theorem construct_preserves_behaviour {f : Function} (h : Constructible f) :
    (construct f).1 = .ok () ∧
      (∀ b, ∀ id ∈ (construct f).2.program.code b, ∀ o,
        o ∈ ((construct f).2.program.stmt id).sources ∨
          ((construct f).2.program.stmt id).dest = some o →
        ∀ r, (construct f).2.program.kind o ≠ .register r) ∧
      ∀ (E : Environment) (c : Context) (n : Nat),
        SameOutcome f.registerTy (f.program.run (E.host (Event.visible f.registerTy)) ⟨c, []⟩ n)
          ((construct f).2.program.run (E.host (Event.visible f.registerTy)) ⟨c, []⟩ n) := by
  refine ⟨?_, fun b id hid o ho r => h.no_registers hid ho r, h.construct_run⟩
  rw [h.construct_eq]
  exact h.ready.rename.1

def countingLoop : Function :=
  (Function.frame [(.gpr 0, .i64), (.gpr 1, .i64)] [(0x1000, .i64), (1, .i64)] [.i64] 3).pushAll [
    (⟨0⟩, ⟨.branch ⟨1⟩, none, []⟩),
    (⟨1⟩, ⟨.branchIf ⟨2⟩ ⟨3⟩, none, [⟨1⟩]⟩),
    (⟨2⟩, ⟨.add, some ⟨4⟩, [⟨0⟩, ⟨3⟩]⟩),
    (⟨2⟩, ⟨.copy, some ⟨0⟩, [⟨4⟩]⟩),
    (⟨2⟩, ⟨.supervisorCall, none, [⟨2⟩, ⟨3⟩]⟩),
    (⟨2⟩, ⟨.branch ⟨1⟩, none, []⟩), (⟨3⟩, ⟨.dispatch, none, [⟨0⟩]⟩)]

theorem constructible_countingLoop : Constructible countingLoop := by
  refine .of_blocks ((Function.wf_frame _ _ _ _).pushAll ?_) ?_ ?_ ?_
  · decide
  · decide
  · decide
  · decide

theorem construct_preserves_countingLoop :
    Constructible countingLoop ∧ (construct countingLoop).1 = .ok () ∧
      ∀ (E : Environment) (c : Context) (n : Nat), SameOutcome countingLoop.registerTy
        (countingLoop.program.run (E.host (Event.visible countingLoop.registerTy)) ⟨c, []⟩ n)
        ((construct countingLoop).2.program.run
          (E.host (Event.visible countingLoop.registerTy)) ⟨c, []⟩ n) :=
  have h := construct_preserves_behaviour constructible_countingLoop
  ⟨constructible_countingLoop, h.1, h.2.2⟩

/-- How a function without requests leaves within so many blocks, and what its first register holds
then. -/
def departure (f : Function) (c : Context) (n : Nat) : Option (Leave × UInt64) :=
  match f.program.run ((Environment.mk fun _ _ _ => (0, .zero)).host some) ⟨c, []⟩ n with
  | .left how w => some (how, w.context.gpr 0)
  | _ => none

/-- A half-width register that is written on one of two paths to the end. -/
def halfWritten : Function :=
  (Function.frame [(.gpr 0, .i32), (.gpr 1, .i64)] [(5, .i32), (0x2000, .i64)] [] 2).pushAll [
    (⟨0⟩, ⟨.branchIf ⟨1⟩ ⟨2⟩, none, [⟨1⟩]⟩),
    (⟨1⟩, ⟨.copy, some ⟨0⟩, [⟨2⟩]⟩),
    (⟨1⟩, ⟨.branch ⟨2⟩, none, []⟩), (⟨2⟩, ⟨.dispatch, none, [⟨3⟩]⟩)]

/-- A register is written by an operation, and a dispatch reads a register, maybe another one. -/
def writeThenDispatch (registers : List (GuestReg × Ty)) (constants : List (UInt64 × Ty))
    (inst : Instruction) (written source target : OperandId) : Function :=
  (Function.frame registers constants [] 0).pushAll [
    (⟨0⟩, ⟨inst, some written, [source]⟩), (⟨0⟩, ⟨.dispatch, none, [target]⟩)]

def Departs (f : Function) (c : Context) (n : Nat) (before after : Leave × UInt64) : Prop :=
  departure f c n = some before ∧ departure (construct f).2 c n = some after

instance (f : Function) (c : Context) (n : Nat) (before after : Leave × UInt64) :
    Decidable (Departs f c n before after) := by
  unfold Departs
  infer_instance

/-- The bits of a field outside the type of its register are not kept. The targets of dispatches
change if two registers share a field, if a register has bits that its field has not, or if a copy
changes the type; and a register that is the destination of an operation without a result is
lost. -/
theorem construct_loses_bits :
    (Constructible halfWritten ∧
      Departs halfWritten (Context.zero.setGpr 0 0xffffffff00000001) 2
        (.dispatch 0x2000, 0xffffffff00000001) (.dispatch 0x2000, 1)) ∧
    Departs (writeThenDispatch [(.gpr 0, .i64), (.gpr 32, .i64)] [(7, .i64)] .copy ⟨1⟩ ⟨2⟩ ⟨0⟩)
      .zero 1 (.dispatch 7, 7) (.dispatch 0, 7) ∧
    Departs (writeThenDispatch [(.flag .n, .i64)] [(0x100000001, .i64)] .copy ⟨0⟩ ⟨1⟩ ⟨0⟩)
      .zero 1 (.dispatch 1, 0) (.dispatch 0x100000001, 0) ∧
    Departs (writeThenDispatch [(.gpr 0, .i32)] [(0x100000001, .i64)] .copy ⟨0⟩ ⟨1⟩ ⟨0⟩)
      .zero 1 (.dispatch 1, 0x100000001) (.dispatch 0x100000001, 0x100000001) ∧
    Departs (writeThenDispatch [(.gpr 0, .i64)] [(7, .i64)] (.storeContext .fpcr) ⟨0⟩ ⟨1⟩ ⟨1⟩)
      (Context.zero.setGpr 0 9) 1 (.dispatch 7, 9) (.dispatch 7, 0) := by
  refine ⟨⟨?_, by decide +kernel⟩, by decide +kernel, by decide +kernel, by decide +kernel,
    by decide +kernel⟩
  refine .of_blocks ((Function.wf_frame _ _ _ _).pushAll ?_) ?_ ?_ ?_
  all_goals decide

end SSA

/-! ### Optimization -/

namespace Function

/-- Each pass of the optimizer and the optimizer as a whole, in both tiers, keep a function in
static single assignment form and what every environment sees of it, up to reads of the counters. -/
theorem optimizer_preserves_behaviour {f : Function} (h : f.WellFormed)
    (hs : f.program.SingleAssignment) :
    ∀ g ∈ [f.propagateCopies.2, f.foldConstants.2, f.eliminateDeadCode.2, (f.optimize .fast).2,
        (f.optimize .optimized).2],
      g.WellFormed ∧ g.program.SingleAssignment ∧
        ∀ (E : Environment) (c : Context) (n : Nat),
          Outcome.Similar Trace.Same (f.program.run (E.host Event.lasting) ⟨c, []⟩ n)
            (g.program.run (E.host Event.lasting) ⟨c, []⟩ n) := by
  have hkeeps : ∀ {g}, Optimizes f g → g.WellFormed ∧ g.program.SingleAssignment ∧
      ∀ (E : Environment) (c : Context) (n : Nat),
        Outcome.Similar Trace.Same (f.program.run (E.host Event.lasting) ⟨c, []⟩ n)
          (g.program.run (E.host Event.lasting) ⟨c, []⟩ n) := fun hopt =>
    ⟨hopt.wf, hopt.form, fun E c n => hopt.same _ _ _ E.counterBlind_lasting _ n⟩
  simp only [forall_mem_cons]
  exact ⟨hkeeps (optimizes_propagateCopies h hs), hkeeps (optimizes_foldConstants h hs),
    hkeeps (optimizes_eliminateDeadCode h hs), hkeeps (optimizes_optimize h hs .fast),
    hkeeps (optimizes_optimize h hs .optimized), forall_mem_nil _⟩

/-- In a well-formed function the lists of definitions show whether locals are defined once. -/
theorem WellFormed.definedOnce {f : Function} (h : f.WellFormed)
    (hdefs : ∀ o ∈ f.operands, o.defs.length ≤ 1) : f.program.DefinedOnce := by
  refine h.definedOnce_of_unique fun b id c id' v i hid hid' hd hd' _ => ?_
  have hmem : id ∈ (f.operand v).defs := (h.tracked.defs v id).mpr ⟨h.live_of_mem hid, hd⟩
  have hmem' : id' ∈ (f.operand v).defs := (h.tracked.defs v id').mpr ⟨h.live_of_mem hid', hd'⟩
  have hlen : (f.operand v).defs.length ≤ 1 := by
    have hlt := h.dest_lt hid hd
    rw [operand, Array.getD_eq_getD_getElem?, Array.getElem?_eq_getElem hlt]
    exact hdefs _ (Array.getElem_mem hlt)
  obtain ⟨x, hdef⟩ := length_eq_one_iff.mp (hlen.antisymm (length_pos_of_mem hmem))
  rw [hdef, mem_singleton] at hmem hmem'
  exact hmem.trans hmem'.symm

def places (f : Function) : List (BlockId × OpId) :=
  f.blockIds.flatMap fun b => (f.program.code b).map (b, ·)

theorem WellFormed.mem_places {f : Function} (h : f.WellFormed) {b : BlockId} {id : OpId}
    (hid : id ∈ f.program.code b) : (b, id) ∈ f.places :=
  mem_flatMap.mpr ⟨b, mem_map.mpr ⟨b.index, mem_range.mpr (h.lt_blocks hid), rfl⟩,
    mem_map_of_mem hid⟩

theorem localsScoped_countingLoop : countingLoop.program.LocalsScoped := by
  have hwell := constructible_countingLoop.wf
  refine ⟨hwell.definedOnce (by decide), fun b done id rest hcode o ho i hi => ?_,
    fun b id hid d hd => ?_, fun b id hid cmp hcmp => ?_⟩
  · have huse : ∀ e ∈ countingLoop.places, ∀ o ∈ (countingLoop.program.stmt e.2).sources,
        (countingLoop.operand o).local? ≠ none → e = (⟨2⟩, ⟨3⟩) ∧ o = ⟨4⟩ := by decide
    have hlocal : (countingLoop.operand o).local? ≠ none := by
      rw [Operand.local?, show (countingLoop.operand o).kind = .local_ i from hi]
      exact Option.some_ne_none i
    obtain ⟨heq, rfl⟩ := huse (b, id) (hwell.mem_places (mem_of_split hcode)) o ho hlocal
    obtain ⟨rfl, rfl⟩ := Prod.mk.inj heq
    have hcode' : countingLoop.program.code ⟨2⟩ = [⟨2⟩] ++ ⟨3⟩ :: [⟨4⟩, ⟨5⟩] := by decide
    rw [hcode'] at hcode
    obtain ⟨rfl, -⟩ := (append_cons_inj_of_notMem (by decide) (by decide)).mp hcode
    exact .inl ⟨⟨2⟩, mem_singleton_self _, by decide⟩
  · have hdest : ∀ e ∈ countingLoop.places, ∀ d ∈ (countingLoop.program.stmt e.2).dest,
        countingLoop.program.kind d = .local_ 0 ∨
          countingLoop.program.kind d = .register (.gpr 0) := by decide
    exact (hdest (b, id) (hwell.mem_places hid) d hd).imp (fun h => ⟨0, h⟩) fun h => ⟨.gpr 0, h⟩
  · have hinst : ∀ e ∈ countingLoop.places, (countingLoop.program.stmt e.2).inst ∈
        [.branch ⟨1⟩, .branchIf ⟨2⟩ ⟨3⟩, .add, .copy, .supervisorCall, .dispatch] := by decide
    have hid := hinst (b, id) (hwell.mem_places hid)
    rw [hcmp] at hid
    simp at hid

theorem optimizer_preserves_countingLoop :
    (construct countingLoop).2.WellFormed ∧
      (construct countingLoop).2.program.SingleAssignment ∧
      ((construct countingLoop).2.optimize .optimized).2.program.SingleAssignment ∧
      ∀ (E : Environment) (c : Context) (n : Nat),
        Outcome.Similar Trace.Same
          ((construct countingLoop).2.program.run (E.host Event.lasting) ⟨c, []⟩ n)
          (((construct countingLoop).2.optimize .optimized).2.program.run
            (E.host Event.lasting) ⟨c, []⟩ n) := by
  have hwell := constructible_countingLoop.wf_construct
  have hform := constructible_countingLoop.singleAssignment localsScoped_countingLoop
  have hopt := optimizer_preserves_behaviour hwell hform
    ((construct countingLoop).2.optimize .optimized).2 (by simp only [mem_cons, true_or, or_true])
  exact ⟨hwell, hform, hopt.2⟩

end Function

end Dynarec.IR
