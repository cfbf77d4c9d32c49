import Dynarec.Proofs.IR.WellFormed

/-!
# Control flow

The blocks that a block may continue at, read off the program, and what can be reached from the
entry. Computed predecessor lists hold each predecessor once.
-/

namespace Dynarec.IR

theorem mem_of_split {α : Type} {ids l r : List α} {id : α} (h : ids = l ++ id :: r) : id ∈ ids :=
  h ▸ List.mem_append_cons_self

/-- The blocks that a terminator may continue at, without duplicates. -/
def Instruction.targets : Instruction → List BlockId
  | .branch target => [target]
  | .branchIf then_ otherwise => if then_ = otherwise then [then_] else [then_, otherwise]
  | _ => []

theorem Instruction.nodup_targets (inst : Instruction) : inst.targets.Nodup := by
  cases inst with
  | branchIf then_ otherwise =>
    simp only [targets]
    split
    · exact List.nodup_singleton _
    · simpa
  | _ => simp [targets]

theorem Instruction.mem_targets_branchIf {b c t : BlockId} :
    t ∈ (Instruction.branchIf b c).targets ↔ t = b ∨ t = c := by
  by_cases h : b = c <;> simp [targets, h]

theorem Instruction.targets_of_not_terminator {inst : Instruction}
    (h : inst.isTerminator = false) : inst.targets = [] := by
  cases inst <;> first | rfl | cases h

namespace Program

variable (p : Program)

def successors (b : BlockId) : List BlockId :=
  match (p.code b).getLast? with
  | some id => (p.stmt id).inst.targets
  | none => []

theorem nodup_successors (b : BlockId) : (p.successors b).Nodup := by
  unfold successors
  split
  · exact Instruction.nodup_targets _
  · exact List.nodup_nil

variable {p} in
theorem successors_congr {q : Program} {b : BlockId} (hcode : q.code b = p.code b)
    (hstmt : ∀ id ∈ p.code b, q.stmt id = p.stmt id) : q.successors b = p.successors b := by
  unfold successors
  rw [hcode]
  split
  next id hid => rw [hstmt id (List.mem_of_getLast? hid)]
  · rfl

inductive Reachable : BlockId → Prop
  | entry : Reachable Function.entry
  | step {b c : BlockId} (hb : Reachable b) (hc : c ∈ p.successors b) : Reachable c

theorem Reachable.mono {p q : Program} {b : BlockId} (h : p.Reachable b)
    (hsucc : ∀ b c, q.Reachable b → c ∈ p.successors b → c ∈ q.successors b) : q.Reachable b := by
  induction h with
  | entry => exact .entry
  | step _ hc ih => exact .step ih (hsucc _ _ ih hc)

end Program

namespace Function

variable {f : Function}

namespace WellFormed

section

variable (h : f.WellFormed)

include h

theorem successors_eq (b : BlockId) : f.successors b = f.program.successors b := by
  have hlast : (f.block b).last = (f.program.code b).getLast? := h.layout.last b
  rw [successors, terminator?, hlast, Program.successors]
  cases (f.program.code b).getLast? with
  | none => rfl
  | some id =>
    change _ = (f.operation id).inst.targets
    cases hinst : (f.operation id).inst <;>
      simp [Option.filter, hinst, Instruction.isTerminator, Instruction.targets]

/-- Blocks that do not exist have no successors. -/
theorem lt_of_mem_successors {b c : BlockId} (hc : c ∈ f.program.successors b) :
    b.index < f.blocks.size := by
  unfold Program.successors at hc
  split at hc
  next id hid => exact h.lt_blocks (List.mem_of_getLast? hid)
  · cases hc

theorem code_eq_nil {b : BlockId} (hb : ¬b.index < f.blocks.size) : f.program.code b = [] :=
  List.eq_nil_iff_forall_not_mem.mpr fun _ hid => hb (h.lt_blocks hid)

theorem layout_computePredecessors : Layout f.computePredecessors f.program.code := by
  refine h.layout.congr (fun b => ?_) fun _ => ⟨rfl, rfl, rfl, rfl⟩
  simp only [block, Function.computePredecessors, Array.getD_eq_getD_getElem?,
    Array.getElem?_mapIdx]
  cases f.blocks[b.index]? <;> exact ⟨rfl, rfl⟩

theorem computePredecessors : f.computePredecessors.WellFormed := by
  have hi := h.interned
  exact h.layout_computePredecessors.wf (h.tracked.congr le_rfl (fun _ => ⟨rfl, rfl⟩)
      fun _ => ⟨rfl, rfl, rfl⟩)
    ⟨hi.local_lt, hi.local_inj, hi.constant_fits, hi.mem_constants, hi.mem_registers,
      hi.mem_undefined, hi.nodup_constants, hi.nodup_registers, hi.nodup_undefined⟩

theorem code_computePredecessors : f.computePredecessors.program.code = f.program.code :=
  h.layout_computePredecessors.blockOperations_eq

theorem successors_computePredecessors (b : BlockId) :
    f.computePredecessors.program.successors b = f.program.successors b := by
  rw [Program.successors, h.code_computePredecessors]
  rfl

end

end WellFormed

theorem mem_blockIds {b : BlockId} : b ∈ f.blockIds ↔ b.index < f.blocks.size := by
  obtain ⟨i⟩ := b
  simp [blockIds]

theorem nodup_blockIds : f.blockIds.Nodup :=
  List.nodup_range.map fun _ _ h => BlockId.mk.inj h

@[simp] theorem size_computePredecessors : f.computePredecessors.blocks.size = f.blocks.size := by
  simp [computePredecessors]

theorem predecessors_computePredecessors (b : BlockId) :
    f.computePredecessors.predecessors b =
      if b.index < f.blocks.size then f.blockIds.filter fun c => (f.successors c).contains b
      else [] := by
  simp only [predecessors, block, computePredecessors, Array.getD_eq_getD_getElem?,
    Array.getElem?_mapIdx]
  split
  next hb =>
    rw [Array.getElem?_eq_getElem hb]
    simp [List.filter_map, Function.comp_def]
  next hb =>
    rw [Array.getElem?_eq_none (by omega)]
    rfl

theorem WellFormed.mem_preds (h : f.WellFormed) {b c : BlockId} :
    c ∈ f.computePredecessors.predecessors b ↔
      b.index < f.blocks.size ∧ b ∈ f.program.successors c := by
  rw [predecessors_computePredecessors]
  split
  next hb =>
    rw [List.mem_filter, mem_blockIds, h.successors_eq, List.contains_iff_mem]
    exact ⟨fun hc => ⟨hb, hc.2⟩, fun hc => ⟨h.lt_of_mem_successors hc.2, hc.2⟩⟩
  next hb => simp [hb]

/-- The predecessor lists hold the blocks that continue at a block, each once. -/
structure ExactPreds (f : Function) : Prop where
  mem : ∀ b c, b.index < f.blocks.size → (c ∈ f.program.preds b ↔ b ∈ f.program.successors c)
  nodup : ∀ b, (f.program.preds b).Nodup

theorem WellFormed.exactPreds (h : f.WellFormed) : f.computePredecessors.ExactPreds := by
  constructor
  · intro b c hb
    rw [size_computePredecessors] at hb
    rw [h.successors_computePredecessors]
    exact h.mem_preds.trans (and_iff_right hb)
  · intro b
    rw [show f.computePredecessors.program.preds b = _ from predecessors_computePredecessors b]
    split
    · exact nodup_blockIds.filter _
    · exact List.nodup_nil

end Function

end Dynarec.IR
