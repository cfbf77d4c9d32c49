import Dynarec.Proofs.IR.Edits
import Mathlib.Algebra.Order.BigOperators.Group.List
import Mathlib.Data.Finset.Card
import Mathlib.Data.Finset.Range

/-!
# Dead code

Dropping an operation can only make the definitions of what it read dead, and these are looked at
again. So the work list always holds every operation that is dead, and an empty one means that none
is left. A sweep ends because each removal adds at most the definitions of four operands.
-/

namespace Dynarec.IR.Function

open List

variable {f g : Function} {id : OpId} {ids work : List OpId} {fuel n : Nat}

/-! ### The bound -/

def liveCount (f : Function) : Nat :=
  ((Finset.range f.operations.size).filter fun i => (f.operation ⟨i⟩).live = true).card

section

variable (hl : Layout f f.blockOperations)

include hl

theorem nodup_allOperations : f.allOperations.Nodup := by
  refine nodup_flatMap.mpr ⟨fun b _ => hl.nodup b, ?_⟩
  refine nodup_blockIds.imp fun {b c} hne x hx hy => hne (hl.eq_block hx hy)

/-- There is time to look at every operation, and after each removal at every operation that it
makes the sweep look at again. -/
theorem length_add_liveCount_le :
    f.allOperations.reverse.length + f.liveCount * (4 * f.operations.size + 1) ≤ f.sweepBound := by
  have hlength : f.allOperations.length ≤ f.operations.size :=
    length_le_of_nodup (nodup_allOperations hl) fun id hid => by
      obtain ⟨b, -, hmem⟩ := mem_flatMap.mp hid
      exact hl.lt_size hmem
  have hcount : f.liveCount ≤ f.operations.size :=
    (Finset.card_filter_le _ _).trans_eq (Finset.card_range _)
  have hmul := Nat.mul_le_mul_right (4 * f.operations.size + 1) hcount
  have hbound : f.sweepBound =
      f.operations.size * (4 * f.operations.size + 1) + f.operations.size +
        (4 * f.operations.size + 2) := by
    rw [sweepBound, Nat.succ_mul, Nat.mul_succ]
  rw [length_reverse]
  omega

/-! ### One removal -/

variable (ht : Tracked f) (hlive : (f.operation id).live = true)

include hlive

theorem layout_remove : Layout (f.remove id) (f.remove id).blockOperations := by
  obtain ⟨before, after, hcode⟩ := append_of_mem (hl.complete id hlive)
  have h := hl.remove hcode
  rwa [h.blockOperations_eq]

theorem liveCount_remove : (f.remove id).liveCount < f.liveCount := by
  have hcontents := hl.contents_remove hlive
  refine Finset.card_lt_card (Finset.ssubset_iff_of_subset ?_ |>.mpr ⟨id.index, ?_, ?_⟩)
  · intro i hi
    simp only [Finset.mem_filter, size_remove, (hcontents _).1, Bool.and_eq_true] at hi ⊢
    exact ⟨hi.1, hi.2.1⟩
  · simpa using ⟨f.lt_size_of_live hlive, hlive⟩
  · simp [(hcontents id).1]

include ht

/-- The uses that are left are those by other operations. -/
theorem mem_uses_remove {o : OperandId} {x : OpId} :
    x ∈ ((f.remove id).operand o).uses ↔ x ∈ (f.operand o).uses ∧ x ≠ id := by
  obtain ⟨hx, -, -, hsources⟩ := hl.contents_remove hlive x
  rw [(ht.remove hl hlive).uses, ht.uses, hx, hsources, Bool.and_eq_true, bne_iff_ne]
  tauto

/-- What was not dead before a removal defines something that was read by what is removed. -/
theorem isDead_of_remove {x : OpId} (hx : (f.remove id).isDead ((f.remove id).operation x) = true) :
    f.isDead (f.operation x) = true ∨
      ∃ s ∈ (f.operation id).sources, x ∈ ((f.remove id).operand s).defs := by
  obtain ⟨hlive', hside, d, hdest, hnone⟩ := isDead_iff.mp hx
  obtain ⟨hl', hinst, hd, -⟩ := hl.contents_remove hlive x
  by_cases hid : id ∈ (f.operand d).uses
  · exact .inr ⟨d, ((ht.uses d id).mp hid).2, ((ht.remove hl hlive).defs d x).mpr ⟨hlive', hdest⟩⟩
  · rw [hl', Bool.and_eq_true] at hlive'
    refine .inl (isDead_iff.mpr ⟨hlive'.1, hinst ▸ hside, d, hd ▸ hdest, ?_⟩)
    refine eq_nil_iff_forall_not_mem.mpr fun y hy => ?_
    have hmem := (mem_uses_remove hl ht hlive).mpr ⟨hy, fun heq : y = id => hid (heq ▸ hy)⟩
    rw [hnone] at hmem
    cases hmem

end

/-- An operation has at most four sources, and each has at most as many definitions as there are
operations. -/
theorem Tracked.length_again_le (h : Tracked f) (op : Operation) :
    (op.sources.flatMap fun s => (f.operand s).defs).length ≤ 4 * f.operations.size := by
  have hfour : op.sources.length ≤ 4 := by
    rw [Operation.sources, length_take, Vector.length_toList]
    exact Nat.min_le_right _ _
  have hdefs : ∀ n ∈ op.sources.map fun s => (f.operand s).defs.length, n ≤ f.operations.size := by
    intro n hn
    obtain ⟨s, -, rfl⟩ := mem_map.mp hn
    exact length_le_of_nodup (h.nodup_defs s) fun id hid =>
      f.lt_size_of_live ((h.defs s id).mp hid).1
  rw [length_flatMap]
  refine (sum_le_card_nsmul _ _ hdefs).trans ?_
  rw [length_map]
  exact Nat.mul_le_mul_right _ hfour

/-! ### Sweeps -/

theorem sweep_nil {s : Nat × Function} : sweep fuel [] s = s := by
  cases fuel <;> rfl

theorem sweep_of_not_dead (h : ∀ id, f.isDead (f.operation id) = false) :
    sweep fuel work (n, f) = (n, f) := by
  induction fuel generalizing work with
  | zero => rfl
  | succ fuel ih =>
    cases work with
    | nil => rfl
    | cons id work =>
      rw [sweep, if_neg (by simp [h])]
      exact ih

/-- A sweep whose work list holds all dead operations leaves none of them, however many steps it may
take beyond those it needs. -/
theorem sweep_spec (hl : Layout f f.blockOperations) (ht : Tracked f)
    (hwork : ∀ id, f.isDead (f.operation id) = true → id ∈ work)
    (hfuel : work.length + f.liveCount * (4 * f.operations.size + 1) ≤ fuel) :
    ∃ s : Nat × Function, (∀ more, sweep (fuel + more) work (n, f) = s) ∧
      ∀ id, s.2.isDead (s.2.operation id) = false := by
  induction fuel generalizing f work n with
  | zero =>
    obtain rfl : work = [] := eq_nil_of_length_eq_zero (by omega)
    exact ⟨(n, f), fun _ => sweep_nil, fun id => by simpa using hwork id⟩
  | succ fuel ih =>
    cases work with
    | nil => exact ⟨(n, f), fun _ => sweep_nil, fun id => by simpa using hwork id⟩
    | cons id work =>
      rw [length_cons] at hfuel
      simp only [Nat.succ_add, sweep]
      by_cases hdead : f.isDead (f.operation id) = true
      · have hlive := (isDead_iff.mp hdead).1
        have hcount := Nat.mul_le_mul_right (4 * f.operations.size + 1) (liveCount_remove hl hlive)
        have hagain := (ht.remove hl hlive).length_again_le (f.operation id)
        simp only [if_pos hdead]
        refine ih (layout_remove hl hlive) (ht.remove hl hlive) (fun x hx => ?_) ?_
        · -- what becomes dead is a definition of something that the operation read
          have hx' := (isDead_iff.mp hx).1
          rw [(hl.contents_remove hlive x).1, Bool.and_eq_true, bne_iff_ne] at hx'
          rw [mem_append, mem_reverse, mem_flatMap]
          exact (isDead_of_remove hl ht hlive hx).symm.imp_right fun hdead' =>
            (mem_cons.mp (hwork x hdead')).resolve_left hx'.2
        · rw [Nat.succ_mul] at hcount
          rw [size_remove] at hagain ⊢
          rw [length_append, length_reverse]
          omega
      · simp only [if_neg hdead]
        refine ih hl ht (fun x hx => (mem_cons.mp (hwork x hx)).resolve_left ?_) (by omega)
        rintro rfl
        exact hdead hx

/-! ### What is left -/

/-- `g` is what is left of `f` when these operations are gone. -/
structure Swept (f : Function) (ids : List OpId) (g : Function) : Prop where
  nodup : ids.Nodup
  /-- Only results that nothing reads any more are lost. -/
  unused : ∀ id ∈ ids, (f.operation id).live = true ∧
    (f.operation id).inst.hasSideEffects = false ∧
      ∃ d, (f.operation id).dest = some d ∧ (g.operand d).uses = []
  /-- All others, those with side effects among them, are there, in order. -/
  code : ∀ b, g.blockOperations b = (f.blockOperations b).filter (· ∉ ids)
  contents : ∀ id, (g.operation id).live = ((f.operation id).live && id ∉ ids) ∧
    (g.operation id).inst = (f.operation id).inst ∧ (g.operation id).dest = (f.operation id).dest ∧
      (g.operation id).sources = (f.operation id).sources
  shrinks : ∀ o, (g.operand o).uses ⊆ (f.operand o).uses

theorem Drops.swept (h : Drops f ids g) (hl : Layout f f.blockOperations) (ht : Tracked f) :
    Swept f ids g := by
  induction h with
  | nil f => exact ⟨nodup_nil, by simp, by simp, by simp, fun _ => Subset.refl _⟩
  | @cons f g id ids hdead hrest ih =>
    obtain ⟨hlive, hside, d, hdest, hnone⟩ := isDead_iff.mp hdead
    obtain ⟨hnodup, hunused, hcode, hcontents, hshrinks⟩ :=
      ih (layout_remove hl hlive) (ht.remove hl hlive)
    have hsame := hl.contents_remove hlive
    have hless : ∀ o, (g.operand o).uses ⊆ (f.operand o).uses := fun o x hx =>
      ((mem_uses_remove hl ht hlive).mp (hshrinks o hx)).1
    refine ⟨nodup_cons.mpr ⟨fun hid => ?_, hnodup⟩, fun x hx => ?_, fun b => ?_, fun x => ?_, hless⟩
    · have hagain := (hunused id hid).1
      simp [(hsame id).1] at hagain
    · rcases mem_cons.mp hx with rfl | hx
      · exact ⟨hlive, hside, d, hdest, subset_nil.mp (hnone ▸ hless d)⟩
      · have hx' := hunused x hx
        rw [(hsame x).1, (hsame x).2.1, (hsame x).2.2.1, Bool.and_eq_true] at hx'
        exact ⟨hx'.1.1, hx'.2⟩
    · rw [hcode, hl.blockOperations_remove hlive, filter_filter]
      refine filter_congr fun x _ => ?_
      by_cases hx : x = id
      · simp [hx]
      · simp [hx]
    · obtain ⟨hlive', hinst, hdest', hsources⟩ := hcontents x
      rw [hlive', hinst, hdest', hsources, (hsame x).1]
      refine ⟨?_, (hsame x).2⟩
      by_cases hx : x = id
      · simp [hx]
      · simp [hx, bne_iff_ne.mpr hx]

/-- Dead code elimination ends, drops one dead operation after the other, counts them and leaves
none, so that doing it again changes nothing. -/
theorem eliminateDeadCode_complete (hl : Layout f f.blockOperations) (ht : Tracked f) :
    ∃ ids g, f.eliminateDeadCode = (ids.length, g) ∧ Drops f ids g ∧ Swept f ids g ∧
      (∀ fuel, f.sweepBound ≤ fuel → sweep fuel f.allOperations.reverse (0, f) = (ids.length, g)) ∧
      (∀ id, (g.operation id).live = true → (g.operation id).inst.hasSideEffects = false →
        ∀ d, (g.operation id).dest = some d → (g.operand d).uses ≠ []) ∧
      g.eliminateDeadCode = (0, g) := by
  have hall : ∀ id, f.isDead (f.operation id) = true → id ∈ f.allOperations.reverse := by
    intro id hdead
    have hid := hl.complete id (isDead_iff.mp hdead).1
    exact mem_reverse.mpr (mem_flatMap.mpr ⟨_, mem_blockIds.mpr (hl.block_lt_size hid), hid⟩)
  obtain ⟨⟨_, g⟩, hsweep, hnone⟩ := sweep_spec (n := 0) hl ht hall (length_add_liveCount_le hl)
  obtain ⟨ids, hcount, hdrops⟩ := sweep_drops f.sweepBound f.allOperations.reverse (0, f)
  have hend : sweep f.sweepBound f.allOperations.reverse (0, f) = _ := hsweep 0
  rw [hend] at hcount hdrops
  obtain rfl := hcount.trans (Nat.zero_add _)
  refine ⟨ids, g, hend, hdrops, hdrops.swept hl ht, fun fuel hfuel => ?_,
    fun id hlive hside d hdest hempty => ?_, sweep_of_not_dead hnone⟩
  · rw [← Nat.add_sub_cancel' hfuel]
    exact hsweep _
  · have hdead := isDead_iff.mpr ⟨hlive, hside, d, hdest, hempty⟩
    rw [hnone] at hdead
    cases hdead

/-- A result that is not read, and two definitions in different blocks of what it was made from. -/
def unreadChain : List Edit :=
  [.createBlock, .newLocal .i64, .newLocal .i64, .constant 1 .i64,
    .append ⟨0⟩ .add (some ⟨0⟩) [⟨2⟩, ⟨2⟩], .append ⟨0⟩ (.branch ⟨1⟩) none [],
    .append ⟨1⟩ .copy (some ⟨1⟩) [⟨0⟩], .append ⟨1⟩ .not (some ⟨0⟩) [⟨2⟩],
    .append ⟨1⟩ .exit none [⟨2⟩]]

theorem eliminateDeadCode_complete_unreadChain :
    let f := (ofAddress 0).afterAll unreadChain
    (ofAddress 0).allowsAll unreadChain = true ∧ f.eliminateDeadCode.1 = 3 ∧
      f.eliminateDeadCode.2.eliminateDeadCode.1 = 0 := by
  intro f
  have hallowed : (ofAddress 0).allowsAll unreadChain = true := by decide
  have h : f.WellFormed := (wf_ofAddress 0).afterAll hallowed
  obtain ⟨ids, g, heq, -, -, -, -, hagain⟩ := eliminateDeadCode_complete h.layout h.tracked
  refine ⟨hallowed, by decide, ?_⟩
  rw [heq, hagain]

end Dynarec.IR.Function
