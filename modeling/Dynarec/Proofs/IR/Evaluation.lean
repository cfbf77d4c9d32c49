import Dynarec.Proofs.IR.Sealed

/-!
# Runs of functions

A function without phis whose operations write locals only runs as its program does: the frame holds
the values of the locals, and the host of the program calls the native functions.
-/

namespace Dynarec.IR

open Program

variable {ω : Type} {f : Function} {native : Native ω} {frame : Frame} {w : ω} {σ : State ω}

def Outcome.left? : Outcome ω → Option (Leave × ω)
  | left how w => some (how, w)
  | _ => none

theorem Outcome.Similar.left?_eq {out out' : Outcome ω} (h : Outcome.Similar Eq out out') :
    out'.left? = out.left? := by
  cases h with
  | running => rfl
  | left hw => rw [hw]
  | stuck => rfl

/-- A run that does not go on stays as it is. -/
theorem Program.run_add {p : Program} {host : Host ω} {m : Nat}
    (h : ∀ pred b σ, p.run host w m ≠ .running pred b σ) (n : Nat) :
    p.run host w (m + n) = p.run host w m := by
  induction n with
  | zero => rfl
  | succ n ih =>
    rw [← Nat.add_assoc, Program.run, ih]
    cases hrun : p.run host w m with
    | running pred b σ => exact absurd hrun (h pred b σ)
    | left how w => rfl
    | stuck => rfl

namespace Eval

variable {following : BlockId} {id : OpId}

theorem runOperations_terminator (h : (f.operation id).inst.isTerminator = true) :
    runOperations f native following [id] frame w =
      (terminate f frame (f.operation id) following, frame, w) := by
  simp only [runOperations, h, if_true]
  split
  next hfall => rw [hfall]
  · rfl

theorem runOperations_step {rest : List OpId} (h : (f.operation id).inst.isTerminator = false) :
    runOperations f native following (id :: rest) frame w =
      runOperations f native following rest (step f native (f.operation id) frame w).1
        (step f native (f.operation id) frame w).2 := by
  rw [runOperations, h]
  rfl

/-- What follows the operations of a block, seen from the program. -/
def Next.flow (following : BlockId) : Next → Flow
  | fall => .goto following
  | goto target => .goto target
  | leave how => .leave how

theorem flow_ite (target : BlockId) :
    (if target = following then Next.fall else .goto target).flow following = .goto target := by
  split
  next h => exact congrArg Flow.goto h.symm
  · rfl

/-- An operation does to the world what the host performs, and writes what that gives. -/
theorem step_eq_perform (op : Operation) (site : Site) :
    step f native op frame w =
      match native.host.perform site op.inst (destType f op) (sourceType f op)
        (sourceValue f frame op 0) (sourceValue f frame op 1) (sourceValue f frame op 2) w with
      | (some value, w) => (write f frame op value, w)
      | (none, w) => (frame, w) := by
  obtain ⟨inst, dest, slots, count, b, prev, next, live⟩ := op
  cases inst <;> rfl

end Eval

open Eval

structure Frame.Holds (frame : Frame) (f : Function) (σ : State ω) : Prop where
  size : frame.size = f.localCount
  value : ∀ o i, o.index < f.operands.size → f.program.kind o = .local_ i →
    frame.getD i 0 = σ.locals o

structure Function.Executable (f : Function) : Prop where
  wf : f.WellFormed
  sealed : f.Sealed
  phi : ∀ b, ∀ id ∈ f.program.code b, (f.program.stmt id).inst ≠ .phi
  dest : ∀ b, ∀ id ∈ f.program.code b, ∀ d, (f.program.stmt id).dest = some d →
    ∃ i, f.program.kind d = .local_ i
  source : ∀ b, ∀ id ∈ f.program.code b, ∀ o ∈ (f.program.stmt id).sources,
    ∀ r, f.program.kind o ≠ .register r

namespace Function.Executable

variable {b : BlockId} {id : OpId} {host : Host ω} (hf : f.Executable)
  (hid : id ∈ f.program.code b) (h : frame.Holds f σ)

include hf hid h

theorem operandValue_eq {o : OperandId}
    (ho : o ∈ (f.program.stmt id).sources) : operandValue f frame o = f.program.read host σ o := by
  simp only [operandValue, Program.read, Function.program]
  cases hkind : (f.operand o).kind with
  | local_ i => exact h.value o i (hf.wf.source_lt hid ho) hkind
  | constant v => rfl
  | register r => exact absurd hkind (hf.source b id hid o ho r)
  | undefined => rfl

theorem sourceValue_eq (i : Nat) :
    sourceValue f frame (f.operation id) i = f.program.argument host σ (f.program.stmt id) i := by
  have hsource : (f.operation id).source? i = (f.program.stmt id).sources[i]? := rfl
  rw [sourceValue, argument, hsource]
  cases ho : (f.program.stmt id).sources[i]? with
  | none => rfl
  | some o => exact hf.operandValue_eq hid h (List.mem_of_getElem? ho)

omit h in
/-- Only the value of a local may have bits outside its type. -/
theorem argument_fits (host : Host ω) (σ : State ω)
    (hlocal : ∀ i, ((f.operation id).source? 0).map (fun o => (f.operand o).kind) ≠
      some (.local_ i)) :
    f.program.argument host σ (f.program.stmt id) 0 &&&
      (f.program.sourceTy (f.program.stmt id)).mask =
      f.program.argument host σ (f.program.stmt id) 0 := by
  have hsource : (f.operation id).source? 0 = (f.program.stmt id).sources[0]? := rfl
  rw [hsource] at hlocal
  unfold argument sourceTy
  cases ho : (f.program.stmt id).sources[0]? with
  | none => exact UInt64.zero_and
  | some o =>
    have hmem := List.mem_of_getElem? ho
    simp only [ho, Option.map_some, ne_eq, Option.some.injEq] at hlocal
    simp only [Program.read, Function.program]
    cases hkind : (f.operand o).kind with
    | local_ i => exact absurd hkind (hlocal i)
    | constant v =>
      exact hf.wf.interned.constant_fits o v (hf.wf.source_lt hid hmem) hkind
    | register r => exact absurd hkind (hf.source b id hid o hmem r)
    | undefined => exact UInt64.zero_and

theorem flow?_eq (following : BlockId)
    (hterm : (f.program.stmt id).inst.isTerminator = true) :
    f.program.flow? host σ id =
      some ((terminate f frame (f.operation id) following).flow following) := by
  have hvalue : sourceValue f frame (f.operation id) 0 =
    f.program.argument host σ (f.program.stmt id) 0 := hf.sourceValue_eq hid h 0
  have hty : sourceType f (f.operation id) = f.program.sourceTy (f.program.stmt id) := rfl
  have hinst : (f.operation id).inst = (f.program.stmt id).inst := rfl
  cases hstmt : (f.program.stmt id).inst with
  | branch target => simp only [flow?, terminate, hinst, hstmt, flow_ite]
  | branchIf then_ otherwise =>
    have hfits := hf.argument_fits hid host σ
    simp only [flow?, terminate, hinst, hstmt, hvalue, hty]
    generalize f.program.argument host σ (f.program.stmt id) 0 = a at hfits ⊢
    generalize ((f.operation id).source? 0).map _ = kind at hfits ⊢
    rcases kind with _ | _ | _
    case some.local_ i =>
      by_cases hzero : a &&& (f.program.sourceTy (f.program.stmt id)).mask = 0
      · simp [hzero, flow_ite]
      · simp [hzero, Next.flow]
    all_goals
      rw [hfits (by simp)]
      simp [flow_ite]
  | dispatch => simp only [flow?, terminate, hinst, hstmt, hvalue, Next.flow]
  | exit => simp only [flow?, terminate, hinst, hstmt, hvalue, Next.flow]
  | _ =>
    rw [hstmt] at hterm
    cases hterm

/-- A result goes to the local of the destination, in the frame and in the program. -/
theorem holds_write (host : Host ω) (v : UInt64) (w : ω) :
    (write f frame (f.operation id) v).Holds f
        (f.program.assign host (f.program.stmt id).dest v { σ with world := w }) ∧
      (f.program.assign host (f.program.stmt id).dest v { σ with world := w }).world = w := by
  have hdest : (f.operation id).dest = (f.program.stmt id).dest := rfl
  rw [write, hdest]
  cases hd : (f.program.stmt id).dest with
  | none => exact ⟨⟨h.size, h.value⟩, rfl⟩
  | some d =>
    obtain ⟨i, hi⟩ := hf.dest b id hid d hd
    have hlocal : (f.operand d).local? = some i := by
      rw [Operand.local?, show (f.operand d).kind = .local_ i from hi]
    have hlt := hf.wf.dest_lt hid hd
    simp only [Option.bind_some, hlocal, assign, hi]
    refine ⟨⟨by rw [Array.size_setIfInBounds, h.size], fun o j ho hj => ?_⟩, rfl⟩
    by_cases hod : o = d
    · have hij : i < frame.size := h.size ▸ hf.wf.interned.local_lt d i hlt hi
      obtain rfl : j = i := by
        rw [hod, hi] at hj
        exact (OperandKind.local_.inj hj).symm
      rw [hod]
      simp [hij]
    · have hij : i ≠ j := by
        rintro rfl
        exact hod (hf.wf.interned.local_inj o d i ho hlt hj hi)
      rw [State.locals_set_of_ne _ hod]
      simpa [hij] using h.value o j ho hj

theorem holds_step (native : Native ω) (visit : Nat) :
    (step f native (f.operation id) frame σ.world).1.Holds f
        (f.program.execute native.host ⟨visit, id⟩ σ) ∧
      (f.program.execute native.host ⟨visit, id⟩ σ).world =
        (step f native (f.operation id) frame σ.world).2 := by
  have hinst : (f.operation id).inst = (f.program.stmt id).inst := rfl
  have hty : destType f (f.operation id) = f.program.destTy (f.program.stmt id) := rfl
  have hsty : sourceType f (f.operation id) = f.program.sourceTy (f.program.stmt id) := rfl
  have hvalue : ∀ i, sourceValue f frame (f.operation id) i =
    f.program.argument native.host σ (f.program.stmt id) i := hf.sourceValue_eq hid h
  rw [step_eq_perform (f.operation id) ⟨visit, id⟩, execute]
  simp only [if_neg (hf.phi b id hid), hinst, hty, hsty, hvalue]
  generalize native.host.perform _ _ _ _ _ _ _ σ.world = result
  obtain ⟨_ | v, w⟩ := result
  · exact ⟨⟨h.size, h.value⟩, rfl⟩
  · exact hf.holds_write hid h native.host v w

omit hid in
/-- The operations of a block do the same in the function and in the program. -/
theorem runOperations_eq (native : Native ω) (following : BlockId) (visit : Nat)
    {ids : List OpId} (hids : ids ⊆ f.program.code b) (hterm : f.program.Terminated ids) :
    ∃ next frame' τ, runOperations f native following ids frame σ.world = (next, frame', τ.world) ∧
      f.program.runCode native.host visit ids σ = (some (next.flow following), τ) ∧
      frame'.Holds f τ := by
  induction ids generalizing frame σ with
  | nil => exact hterm.elim
  | cons id ids ih =>
    have hid := hids List.mem_cons_self
    rw [runCode]
    cases ids with
    | nil =>
      rw [hf.flow?_eq hid h following hterm, runOperations_terminator hterm]
      exact ⟨_, frame, σ, rfl, rfl, h⟩
    | cons e ids =>
      obtain ⟨hstep, hworld⟩ := hf.holds_step hid h native visit
      rw [f.program.flow?_eq_none _ _ hterm.1, runOperations_step hterm.1, ← hworld]
      exact ih hstep (fun x hx => hids (List.mem_cons_of_mem _ hx)) hterm.2

omit hid in
/-- From a block on, the function runs as the program does that has come to this block. -/
theorem runFrom_eq (native : Native ω) {w₀ : ω} {m : Nat}
    {pred : Option BlockId} (hrun : f.program.run native.host w₀ m = .running pred b σ) (n : Nat) :
    runFrom f native n b frame σ.world = (f.program.run native.host w₀ (m + n)).left? := by
  induction n generalizing m pred b frame σ with
  | zero =>
    rw [Nat.add_zero, hrun]
    rfl
  | succ n ih =>
    have hnext : f.program.run native.host w₀ (m + 1) =
        f.program.advance native.host m (.running pred b σ) := by rw [Program.run, hrun]
    rw [advance, enter_of_not_phi (hf.phi b)] at hnext
    rw [runFrom, Nat.add_comm n 1, ← Nat.add_assoc]
    by_cases hb : b.index < f.blocks.size
    · obtain ⟨next, frame', τ, hops, hcode, h'⟩ := hf.runOperations_eq h native ⟨b.index + 1⟩ m
        (List.Subset.refl _) (hf.sealed.terminated b hb)
      rw [hcode] at hnext
      simp only [hasBlock, hb, decide_true, Bool.not_true]
      rw [show f.blockOperations b = f.program.code b from rfl, hops]
      cases next with
      | fall => exact ih h' hnext
      | goto target => exact ih h' hnext
      | leave how =>
        rw [run_add (by simp [hnext, Next.flow]), hnext]
        rfl
    · rw [hf.wf.code_eq_nil hb] at hnext
      rw [run_add (by simp [hnext, runCode]), hnext]
      simp [hasBlock, hb, runCode, Outcome.left?]

omit hid h in
/-- A function runs as its program does. -/
theorem run_eq (native : Native ω) (n : Nat) (w : ω) :
    f.run native n w = (f.program.run native.host w n).left? := by
  have hstart : Frame.Holds (Array.replicate f.localCount 0) f ⟨fun _ => 0, w⟩ := by
    refine ⟨Array.size_replicate, fun o i _ _ => ?_⟩
    rw [Array.getD_eq_getD_getElem?, Array.getElem?_replicate]
    split <;> rfl
  have hrun : f.program.run native.host w 0 = .running none entry ⟨fun _ => 0, w⟩ := rfl
  rw [Function.run, hf.runFrom_eq hstart native hrun n, Nat.zero_add]

end Function.Executable

end Dynarec.IR
