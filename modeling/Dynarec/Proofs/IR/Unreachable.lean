import Dynarec.IR.SSA
import Dynarec.Proofs.IR.ReversePostorder

/-!
# Unreachable blocks

Before construction unreachable blocks become exits, so that all predecessors of a block are
reachable. What can be reached stays as it is.
-/

namespace Dynarec.IR.SSA

open Program List

variable {f g : Function} {pc : OperandId}

/-- `g` is `f` with the blocks in `cut` replaced by exits to `pc`. -/
structure Exits (f : Function) (pc : OperandId) (cut : List BlockId) (g : Function) : Prop
    extends Function.Added f g where
  code : ∀ b, b ∉ cut → g.program.code b = f.program.code b
  exit : ∀ b ∈ cut, ∃ id, g.program.code b = [id] ∧ g.program.stmt id = ⟨.exit, none, [pc]⟩

theorem Exits.refl (h : f.WellFormed) : Exits f pc [] f where
  toAdded := .refl h
  code _ _ := rfl
  exit := forall_mem_nil _

/-- Removing all operations of a block empties it. -/
theorem foldl_remove {b : BlockId} {ids : List OpId} (h : f.WellFormed)
    (hcode : f.program.code b = ids) (hg : g = ids.foldl Function.remove f) :
    g.WellFormed ∧ g.program = f.program.withCode b [] ∧ Function.SamePools f g ∧
      g.operations.size = f.operations.size := by
  induction ids generalizing f with
  | nil =>
    subst hg
    refine ⟨h, ?_, .refl _, rfl⟩
    rw [← hcode]
    exact Program.ext (Function.update_eq_self b _).symm rfl rfl rfl rfl
  | cons id ids ih =>
    have hsplit : f.program.code b = [] ++ id :: ids := hcode
    have hp := h.program_remove hsplit
    obtain ⟨hw, hprog, hpools, hsize⟩ := ih (h.remove hsplit)
      (by rw [hp, code_withCode, if_pos rfl, nil_append]) hg
    refine ⟨hw, ?_, (f.samePools_remove id).trans hpools, ?_⟩
    · rw [hprog, hp]
      refine Program.ext ?_ rfl rfl rfl rfl
      exact Function.update_idem ..
    · rw [hsize, Function.size_remove]

theorem Exits.replaceByExit {cut : List BlockId} {b : BlockId} (h : Exits f pc cut g)
    (hb : b.index < f.blocks.size) (hpc : pc.index < f.operands.size) (hnot : b ∉ cut) :
    Exits f pc (cut ++ [b]) (SSA.replaceByExit pc g b) := by
  obtain ⟨hw, hp, hpools, hsize⟩ := foldl_remove h.wf rfl rfl
  generalize hg₁ : (g.program.code b).foldl Function.remove g = g₁ at *
  generalize hres : g₁.pushBack b .exit none [pc] = res
  have hdef : SSA.replaceByExit pc g b = res.2 := by
    rw [← hres, ← hg₁]
    rfl
  have hcode₁ : g₁.program.code b = [] := by
    rw [hp, code_withCode, if_pos rfl]
  have hins : Function.Inserted g₁ b ⟨.exit, none, [pc]⟩
      (g₁.program.code b ++ [⟨g₁.operations.size⟩]) res := by
    rw [← hres]
    refine hw.inserted_pushBack .exit ?_ ?_ ?_ ?_
    · rw [hpools.blocks, h.pools.blocks]
      exact hb
    · simp [maxSources]
    · simpa [hpools.operands, h.pools.operands] using hpc
    · exact fun d hd => absurd hd (by simp)
  have hother : ∀ c, c ≠ b → res.2.program.code c = g.program.code c := by
    intro c hc
    rw [hins.program, code_withCode, if_neg hc, code_withStmt, hp, code_withCode, if_neg hc]
  have hadded : g.Added g₁ := ⟨hw, hpools, hsize.ge, fun x _ => by rw [hp, stmt_withCode]⟩
  rw [hdef]
  refine ⟨h.toAdded.trans (hadded.trans hins.added), fun c hc => ?_, fun c hc => ?_⟩
  · rw [mem_append, not_or, mem_singleton] at hc
    rw [hother c hc.2, h.code c hc.1]
  · by_cases hcb : c = b
    · subst hcb
      refine ⟨⟨g₁.operations.size⟩, ?_, hins.stmt_new⟩
      rw [hins.program, code_withCode, if_pos rfl, hcode₁, nil_append]
    · obtain ⟨id, hcode, hid⟩ := h.exit c ((mem_append.mp hc).resolve_right (by simpa using hcb))
      refine ⟨id, (hother c hcb).trans hcode, ?_⟩
      rw [(hadded.trans hins.added).old id
        (h.wf.lt_operations (hcode ▸ mem_singleton_self id)), hid]

theorem Exits.foldl_replaceByExit {cut bs : List BlockId} (h : Exits f pc cut g)
    (hbs : ∀ b ∈ bs, b.index < f.blocks.size) (hpc : pc.index < f.operands.size)
    (hnodup : (cut ++ bs).Nodup) :
    Exits f pc (cut ++ bs) (bs.foldl (SSA.replaceByExit pc) g) := by
  induction bs generalizing cut g with
  | nil => simpa using h
  | cons b bs ih =>
    have hnot : b ∉ cut := fun hmem =>
      (nodup_append.mp hnodup).2.2 b hmem b (.head _) rfl
    have happend : cut ++ b :: bs = (cut ++ [b]) ++ bs := by simp
    rw [happend] at hnodup ⊢
    exact ih (h.replaceByExit (hbs b (.head _)) hpc hnot) (fun c hc => hbs c (.tail _ hc)) hnodup

/-- `g` is `f` with its unreachable blocks replaced by exits. -/
structure Cut (f g : Function) : Prop extends Function.OperandsKept f g where
  wf : g.WellFormed
  blocks : g.blocks.size = f.blocks.size
  registers : g.registers = f.registers
  code : ∀ b, f.program.Reachable b → g.program.code b = f.program.code b
  stmt : ∀ b, f.program.Reachable b → ∀ id ∈ f.program.code b, g.program.stmt id = f.program.stmt id
  dead : ∀ b, b.index < f.blocks.size → ¬f.program.Reachable b → ∃ id pc,
    g.program.code b = [id] ∧ g.program.stmt id = ⟨.exit, none, [pc]⟩ ∧
      ∃ v, g.program.kind pc = .constant v

theorem cutUnreachable_cut (h : f.WellFormed) (ho : f.Ordered f.reversePostorder) :
    Cut f (cutUnreachable f) := by
  have hmem : ∀ b, f.reversePostorder.contains b = true ↔ f.program.Reachable b := by
    intro b
    rw [contains_iff_mem, ho.mem]
  unfold cutUnreachable
  dsimp only
  split
  · next hempty =>
    rw [List.isEmpty_iff, filter_eq_nil_iff] at hempty
    refine ⟨.refl f, h, rfl, rfl, fun _ _ => rfl, fun _ _ _ _ => rfl,
      fun b hb hnot => absurd ?_ hnot⟩
    have := hempty b (Function.mem_blockIds.mpr hb)
    rw [← hmem]
    simpa using this
  · obtain ⟨hw, hext, hregs, hlt, hkind, -⟩ := h.constant f.guestAddress .i64
    generalize f.constant f.guestAddress .i64 = c at *
    obtain ⟨pc, f₁⟩ := c
    have hblocks : f₁.blocks.size = f.blocks.size := by rw [hext.blocks]
    have he : Exits f₁ pc (f.blockIds.filter fun b => !f.reversePostorder.contains b)
        ((f.blockIds.filter fun b => !f.reversePostorder.contains b).foldl
          (replaceByExit pc) f₁) := by
      refine (Exits.refl hw).foldl_replaceByExit (fun b hb => ?_) hlt ?_
      · rw [hblocks, ← Function.mem_blockIds]
        exact mem_of_mem_filter hb
      · exact Function.nodup_blockIds.filter _
    have hreach : ∀ b, f.program.Reachable b →
        b ∉ f.blockIds.filter fun b => !f.reversePostorder.contains b := by
      intro b hb hmem'
      have := (mem_filter.mp hmem').2
      rw [(hmem b).mpr hb] at this
      cases this
    refine ⟨hext.operandsKept.trans he.pools.operandsKept, he.wf, he.pools.blocks.trans hblocks,
      he.pools.registers.trans hregs, ?_, ?_, ?_⟩
    · intro b hb
      rw [he.code b (hreach b hb), hext.code_eq]
    · intro b hb id hid
      have hlt : id.index < f₁.operations.size := by
        rw [hext.operations]
        exact h.lt_operations hid
      rw [he.old id hlt, hext.stmt_eq]
    · intro b hb hnot
      obtain ⟨id, hcode, hid⟩ := he.exit b (mem_filter.mpr
        ⟨Function.mem_blockIds.mpr hb, by simpa [← hmem] using hnot⟩)
      exact ⟨id, pc, hcode, hid, _, (he.pools.kind pc).trans hkind⟩

end Dynarec.IR.SSA
