import Dynarec.IR.Verify
import Dynarec.Proofs.IR.Sealed

/-!
# Structural checks pass

A well-formed function whose blocks end in terminators and whose phis have a source for each
predecessor passes the structural checks: the use lists are exact by themselves.
-/

namespace Dynarec.IR.Function

open List

variable {f : Function} {α ε : Type} {b : BlockId} {l : List α} {check : α → Except ε Unit}

theorem forM_ok_iff : l.forM check = .ok () ↔ ∀ a ∈ l, check a = .ok () := by
  induction l with
  | nil => exact ⟨fun _ => forall_mem_nil _, fun _ => rfl⟩
  | cons a l ih =>
    rw [List.forM, forall_mem_cons, ← ih]
    cases check a with
    | error e => exact ⟨nofun, nofun⟩
    | ok => exact ⟨fun h => ⟨rfl, h⟩, And.right⟩

/-! ### Blocks -/

/-- What the checks can object to in a block. -/
inductive Fault (f : Function) (b : BlockId) : CompileError → Prop
  | empty (h : f.blockOperations b = []) : Fault f b (.invalidIR (b.label ++ " is empty"))
  | unterminated {last : OpId} (h : (f.blockOperations b).getLast? = some last)
      (hinst : (f.operation last).inst.isTerminator = false) :
      Fault f b (.invalidIR (b.label ++ " does not end in a terminator"))
  | early {id : OpId} (h : id ∈ (f.blockOperations b).dropLast)
      (hinst : (f.operation id).inst.isTerminator = true) :
      Fault f b (.invalidIR (id.label ++ " terminates " ++ b.label ++ " early"))
  | arity {id : OpId} (h : id ∈ f.blockOperations b) (hinst : (f.operation id).inst = .phi)
      (hlength : (f.operation id).sources.length ≠ (f.predecessors b).length) :
      Fault f b (.invalidIR (id.label ++ " has the wrong phi arity"))

/-- With a terminator at its end and no other one, the operations of a block are checked. -/
theorem checkBlock_eq_forM (hterm : f.program.Terminated (f.program.code b)) :
    f.checkBlock b = (f.blockOperations b).forM (f.checkOperation b) := by
  obtain ⟨first, last, hcode, hlast⟩ := hterm.exists_last
  rw [hcode] at hterm
  have hops : f.blockOperations b = first ++ [last] := hcode
  have hlast : (f.operation last).inst.isTerminator = true := hlast
  have hfind : (first.find? fun id => (f.operation id).inst.isTerminator) = none :=
    find?_eq_none.mpr fun id hid => by
      have hfront : (f.operation id).inst.isTerminator = false := hterm.front hid
      simp [hfront]
  unfold checkBlock
  simp only [hops, getLast?_append, getLast?_singleton, Option.some_or, hlast,
    dropLast_concat, hfind]
  rfl

theorem terminated_or_fault (f : Function) (b : BlockId) :
    f.program.Terminated (f.program.code b) ∨ ∃ e, f.checkBlock b = .error e ∧ Fault f b e := by
  unfold checkBlock
  dsimp only
  cases hlast : (f.blockOperations b).getLast? with
  | none => exact .inr ⟨_, rfl, .empty (getLast?_eq_none_iff.mp hlast)⟩
  | some last =>
    dsimp only
    cases hterm : (f.operation last).inst.isTerminator with
    | false => exact .inr ⟨_, rfl, .unterminated hlast hterm⟩
    | true =>
      cases hfind : (f.blockOperations b).dropLast.find? fun id =>
          (f.operation id).inst.isTerminator with
      | some early =>
        have hearly := find?_some hfind
        exact .inr ⟨_, rfl, .early (mem_of_find?_eq_some hfind) hearly⟩
      | none =>
        have hcode : f.program.code b = (f.blockOperations b).dropLast ++ [last] :=
          (dropLast_append_getLast? last hlast).symm
        rw [hcode]
        refine .inl (Program.Terminated.concat (fun id hid => ?_) hterm)
        have hfront := find?_eq_none.mp hfind id hid
        exact Bool.not_eq_true _ ▸ hfront

section

variable (h : f.WellFormed)

include h

theorem WellFormed.checkOperation_eq_ok {id : OpId}
    (hid : id ∈ f.program.code b) (harity : (f.program.stmt id).inst = .phi →
      (f.program.stmt id).sources.length = (f.program.preds b).length) :
    f.checkOperation b id = .ok () := by
  obtain ⟨hlive, hblock⟩ := h.mem_code_iff.mp hid
  unfold checkOperation
  by_cases hphi : (f.operation id).inst = .phi
  · have hlen : (f.operation id).sources.length = (f.predecessors b).length := harity hphi
    simp [hlive, hblock, hlen]
    rfl
  · simp [hlive, hblock, hphi]
    rfl

theorem WellFormed.checkBlock_eq_ok (hterm : f.program.Terminated (f.program.code b))
    (harity : ∀ id ∈ f.program.code b, (f.program.stmt id).inst = .phi →
      (f.program.stmt id).sources.length = (f.program.preds b).length) :
    f.checkBlock b = .ok () := by
  rw [checkBlock_eq_forM hterm]
  exact forM_ok_iff.mpr fun id hid => h.checkOperation_eq_ok hid (harity id hid)

omit h in
theorem nodup_eraseDups [BEq α] [LawfulBEq α] (l : List α) : l.eraseDups.Nodup := by
  induction hn : l.length using Nat.strongRecOn generalizing l with
  | ind n ih =>
    cases l with
    | nil => exact nodup_nil
    | cons a l =>
      rw [eraseDups_cons, nodup_cons]
      refine ⟨by simp, ih _ ?_ _ rfl⟩
      rw [← hn]
      exact Nat.lt_succ_of_le (length_filter_le _ l)

/-- The use lists hold the readers of an operand. -/
theorem WellFormed.uses_perm_readers (o : OperandId) : (f.operand o).uses.Perm
    (f.readers f.allOperations o) := by
  refine (perm_ext_iff_of_nodup (h.tracked.nodup_uses o) ?_).mpr fun id => ?_
  · exact nodup_eraseDups _
  · rw [h.tracked.uses, readers, mem_eraseDups, mem_filter, contains_iff_mem]
    refine and_congr_left fun _ => ⟨fun hlive => ?_, fun hid => ?_⟩
    · exact mem_allOperations h (h.mem_code_iff.mpr ⟨hlive, rfl⟩)
    · obtain ⟨b, -, hb⟩ := mem_flatMap.mp hid
      exact h.live_of_mem hb

theorem WellFormed.checkUses_eq_ok (o : OperandId) : f.checkUses f.allOperations o = .ok () := by
  have hperm := h.uses_perm_readers o
  refine if_pos ⟨hperm.length_eq, all_eq_true.mpr fun id hid => ?_⟩
  rw [contains_iff_mem]
  exact hperm.mem_iff.mpr hid

theorem WellFormed.verify_eq_ok (hsealed : f.Sealed)
    (harity : ∀ b, ∀ id ∈ f.program.code b, (f.program.stmt id).inst = .phi →
      (f.program.stmt id).sources.length = (f.program.preds b).length) : f.verify = .ok () := by
  have hblocks : f.blockIds.forM f.checkBlock = .ok () := forM_ok_iff.mpr fun b hb =>
    h.checkBlock_eq_ok (hsealed.terminated b (mem_blockIds.mp hb)) (harity b)
  have huses : ((range f.operands.size).forM fun i => f.checkUses f.allOperations ⟨i⟩) =
      .ok () := forM_ok_iff.mpr fun i _ => h.checkUses_eq_ok ⟨i⟩
  unfold verify
  rw [hblocks]
  exact huses

end

/-- The checks see to it that all blocks end in a terminator. -/
theorem terminated_of_verify (h : f.verify = .ok ()) (hb : b.index < f.blocks.size) :
    f.program.Terminated (f.program.code b) := by
  have hblocks : f.blockIds.forM f.checkBlock = .ok () := by
    unfold verify at h
    cases hall : f.blockIds.forM f.checkBlock with
    | ok => rfl
    | error e =>
      rw [hall] at h
      cases h
  refine (terminated_or_fault f b).resolve_right fun ⟨e, he, _⟩ => ?_
  cases he.symm.trans (forM_ok_iff.mp hblocks b (mem_blockIds.mpr hb))

end Dynarec.IR.Function
