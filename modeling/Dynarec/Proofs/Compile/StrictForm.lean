import Dynarec.Proofs.Compile.PhiFree
import Dynarec.Proofs.Guest.OperandRanges

/-!
# Strict form

The first half of the compilation of a decoded block cannot fail, and gives strict static single
assignment form: each local has one definition, which dominates its uses.
-/

namespace Dynarec.IR

namespace Program

variable {p : Program} {b : BlockId} {v : OperandId} {i : Nat}

/-- Where a local is defined that has been defined after the operations `done` of a block. -/
def Reaches (p : Program) (b : BlockId) (done : List OpId) (v : OperandId) : Prop :=
  ∃ c id, id ∈ p.code c ∧ (p.stmt id).dest = some v ∧ (c = b ∧ id ∈ done ∨ c ≠ b ∧ p.Dominates c b)

theorem DefinedOnce.reaches (h : p.DefinedOnce) (hv : p.kind v = .local_ i) (hb : p.Reachable b)
    {done : List OpId} (hsub : done ⊆ p.code b) (hdef : p.DefinedAt b done v) :
    p.Reaches b done v := by
  rcases hdef with ⟨id, hid, hdest⟩ | hbefore
  · exact ⟨b, id, hsub hid, hdest, .inl ⟨rfl, hid⟩⟩
  · obtain ⟨c, hne, hdom, id, hid, hdest⟩ := (h.definedBefore_iff hv hb).mp hbefore
    exact ⟨c, id, hid, hdest, .inr ⟨hne, hdom⟩⟩

end Program

structure Function.Strict (f : Function) : Prop where
  verified : f.verify = .ok ()
  terminated : ∀ b, b.index < f.blocks.size → ∃ first last, f.program.code b = first ++ [last] ∧
    (f.program.stmt last).inst.isTerminator = true ∧
    ∀ id ∈ first, (f.program.stmt id).inst.isTerminator = false
  few : ∀ b, (f.program.preds b).length ≤ 2
  register : ∀ b, ∀ id ∈ f.program.code b, ∀ o ∈ (f.program.stmt id).sources, ∀ r,
    f.program.kind o ≠ .register r
  dest : ∀ b, ∀ id ∈ f.program.code b, ∀ d, (f.program.stmt id).dest = some d →
    ∃ i, f.program.kind d = .local_ i
  once : ∀ b c, ∀ id ∈ f.program.code b, ∀ id' ∈ f.program.code c, ∀ d,
    (f.program.stmt id).dest = some d → (f.program.stmt id').dest = some d → id = id'
  /-- A definition stands before a use in the same block, or dominates the block of the use. -/
  use : ∀ b done id rest, f.program.code b = done ++ id :: rest → (f.program.stmt id).inst ≠ .phi →
    ∀ o ∈ (f.program.stmt id).sources, ∀ i, f.program.kind o = .local_ i →
    f.program.Reaches b done o
  /-- A source of a phi is used at the end of the predecessor it belongs to. -/
  phi : ∀ b, ∀ id ∈ f.program.code b, (f.program.stmt id).inst = .phi → ∀ (k : Nat) o c,
    (f.program.stmt id).sources[k]? = some o → (f.program.preds b)[k]? = some c →
    ∀ i, f.program.kind o = .local_ i → f.program.Reaches c (f.program.code c) o

namespace SSA.Constructible

variable {f : Function} {b c : BlockId} {id : OpId} {o : OperandId} {i : Nat}

section

variable (h : Constructible f)

include h

theorem reachable_construct : (construct f).2.program.Reachable b ↔ f.program.Reachable b := by
  obtain ⟨R⟩ := h.renamed
  rw [← h.alike_trimmed.reachable]
  exact ⟨R.reachable h.ready, fun hb => hb.mono fun b c _ hc => R.successors_eq h.ready b ▸ hc⟩

/-- Blocks that are left, but cannot be reached, do not lead to any block. -/
theorem reachable_of_successor (hc : c ∈ (construct f).2.program.successors b) :
    (construct f).2.program.Reachable b := by
  rw [h.reachable_construct]
  obtain ⟨R⟩ := h.renamed
  rw [R.successors_eq h.ready] at hc
  exact (h.successors_trimmed hc).1

/-- Blocks that are left, but cannot be reached, use no locals. -/
theorem reachable_of_use (hid : id ∈ (construct f).2.program.code b)
    (ho : o ∈ ((construct f).2.program.stmt id).sources)
    (hi : (construct f).2.program.kind o = .local_ i) : (construct f).2.program.Reachable b := by
  rw [h.reachable_construct]
  by_contra hb
  obtain ⟨R⟩ := h.renamed
  obtain ⟨hcode, hstmt⟩ := R.unreachable h.ready fun hr => hb (h.alike_trimmed.reachable.mp hr)
  rw [hcode] at hid
  rw [hstmt id hid] at ho
  rw [show (construct f).2.program.kind o = _ from
    (R.sound h.ready).kind o (h.wf_trimmed.source_lt hid ho)] at hi
  rcases h.mem_trimmed hid with ⟨hr, -⟩ | ⟨-, -, pc, v, hexit, hv⟩
  · exact hb hr
  · rw [hexit] at ho
    rw [List.mem_singleton.mp ho] at hi
    cases hv.symm.trans hi

/-- What construction gives where two blocks at most lead to a block. -/
theorem strict (hlocals : f.program.LocalsScoped)
    (hfew : ∀ b, (f.computePredecessors.predecessors b).length ≤ 2) : (construct f).2.Strict := by
  have hform := h.singleAssignment hlocals
  obtain ⟨-, hsealed, -, -⟩ := h.construct_sealed
  refine ⟨h.wf_construct.verify_eq_ok hsealed hform.arity, fun b hb => ?_, fun b => ?_,
    hform.source, hform.dest, fun b c id hid id' hid' d hd hd' => ?_,
    fun b done id rest hcode hphi o ho i hi => ?_, fun b id hid hphi k o c ho hc i hi => ?_⟩
  · obtain ⟨first, last, hcode, hlast⟩ := (hsealed.terminated b hb).exists_last
    exact ⟨first, last, hcode, hlast, fun id hid => (hcode ▸ hsealed.terminated b hb).front hid⟩
  · obtain ⟨R⟩ := h.renamed
    rw [R.preds]
    exact (h.length_preds_trimmed b).trans (hfew b)
  · obtain ⟨i, hi⟩ := hform.dest b id hid d hd
    exact (hform.once.unique hi hid hid' hd hd').2
  · have hid := mem_of_split hcode
    exact hform.once.reaches hi (h.reachable_of_use hid ho hi) (hcode ▸ List.subset_append_left ..)
      (hform.use b done id rest hcode hphi o ho i hi)
  · have hb := h.reachable_of_use hid (List.mem_of_getElem? ho) hi
    have hsucc := (hsealed.preds.mem b c (h.wf_construct.lt_blocks hid)).mp
      (List.mem_of_getElem? hc)
    exact hform.once.reaches hi (h.reachable_of_successor hsucc) (List.Subset.refl _)
      (hform.phi b hb id hid hphi k o c ho hc i hi)

end

end SSA.Constructible

end Dynarec.IR

namespace Dynarec.Compilation

open Guest (Block CodeSource Mode)

variable {σ : Type} {source : CodeSource σ} {mode : Mode} {address : UInt64} {limit : Nat}
  {s s' : σ} {block : Block}

/-- The operands of a decoded block are in range and its code is proper, so that no step has too
many sources or a value that does not exist. Construction succeeds and gives strict form. -/
theorem decoded_block_in_strict_form
    (h : Block.decode source mode address limit s = (.ok block, s')) (options : Lift.Options)
    (table : Code.AddressTable) :
    (∀ op ∈ block.opcodes, op.instr.InRange ∧ (Lift.code mode op).Proper mode op.address) ∧
      ∃ ssa, (ofBlock block mode options table).ssa = .ok ssa ∧ ssa.Strict := by
  have hdraft := draft_of_decode h options
  have hcon := constructible_of_decode h options
  have hconsecutive := (Block.decode_consecutive h).2
  refine ⟨fun op hop => ⟨?_, Lift.proper_of_consecutive hconsecutive op hop⟩, _, ?_,
    hcon.strict hdraft.locals hdraft.length_preds_le_two⟩
  · obtain ⟨w, hw⟩ := hconsecutive.of_mem hop
    exact hw ▸ Guest.Opcode.inRange_decode mode op.address w
  · change (IR.SSA.construct (Lift.function block mode options)).1.map _ = _
    rw [hcon.construct_sealed.1]
    rfl

/-- A load if equal with write-back, whose ways meet before the next instruction. -/
theorem loadIfEqual_in_strict_form : ∃ block,
    Block.decode loadIfEqual .a32 0x1000 8 () = (.ok block, ()) ∧ block.opcodes.length = 2 ∧
      ∀ table, ∃ ssa, (ofBlock block .a32 ⟨.optimized, 0, 0⟩ table).ssa = .ok ssa ∧ ssa.Strict := by
  obtain ⟨block, hdecode, hlength⟩ : ∃ block,
      Block.decode loadIfEqual .a32 0x1000 8 () = (.ok block, ()) ∧ block.opcodes.length = 2 :=
    ⟨_, rfl, rfl⟩
  exact ⟨block, hdecode, hlength, fun table =>
    (decoded_block_in_strict_form hdecode ⟨.optimized, 0, 0⟩ table).2⟩

end Dynarec.Compilation
