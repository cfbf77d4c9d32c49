import Dynarec.Proofs.IR.Liveness
import Dynarec.Proofs.IR.Preservation

/-!
# Dominators and live locals by paths

The dominator tree says which blocks every path to a block passes, and liveness says which locals
some path reads before it writes them.
-/

namespace Dynarec.IR

open List
open Dynarec.IR.Function (entry)

/-! ### Dominators -/

namespace Program

variable (p : Program)

/-- `a` is a strict dominator of `b`, and every other one dominates it. -/
def ClosestDominator (a b : BlockId) : Prop :=
  a ≠ b ∧ p.Dominates a b ∧ ∀ d, d ≠ b → p.Dominates d b → p.Dominates d a

/-- `a` dominates a reachable block that continues at `b`, but not `b` itself, unless they are
one. -/
def AtFrontier (a b : BlockId) : Prop :=
  (∃ q, p.Reachable q ∧ b ∈ p.successors q ∧ p.Dominates a q) ∧ ¬(a ≠ b ∧ p.Dominates a b)

end Program

variable {f : Function} {a b q : BlockId}

theorem Avoids.path (hpreds : f.ExactPreds) (h : Avoids f.predecessors a b) :
    ∃ visited, f.program.Path visited b ∧ a ∉ b :: visited := by
  obtain ⟨hentry, hway⟩ := h
  induction hway with
  | refl => exact ⟨[], .entry, fun h => hentry (mem_singleton.mp h)⟩
  | @tail q b _ hstep ih =>
    obtain ⟨visited, hpath, hnot⟩ := ih
    have hb : b.index < f.blocks.size := by
      by_contra hb
      have hnone := hstep.1
      rw [Function.predecessors, Function.block, Array.getD_eq_getD_getElem?,
        Array.getElem?_eq_none (not_lt.mp hb)] at hnone
      cases hnone
    refine ⟨_, .step hpath ((hpreds.mem b q hb).mp hstep.1), fun ha => ?_⟩
    rcases mem_cons.mp ha with rfl | ha
    · exact hstep.2 rfl
    · exact hnot ha

namespace DominatorTree

variable {t : DominatorTree}

/-- With enough fuel, the ancestors of a block are what is above it. -/
theorem Sound.ancestors_spec (ht : t.Sound f) (hb : b ∈ t.order) :
    ∃ above, (∀ fuel, t.order.idxOf b ≤ fuel → t.ancestors fuel b = above) ∧
      ∀ a, a ∈ above ↔ Anc t.parents.parent? a b := by
  have F := ht.immediate.forest
  induction F.entry_anc (ht.immediate.all b hb) with
  | refl =>
    refine ⟨[entry], fun fuel _ => ?_, fun a => mem_singleton.trans F.anc_entry.symm⟩
    cases fuel <;> simp [ancestors, idom?]
  | @up b c hc _ ih =>
    obtain ⟨above, habove, hmem⟩ := ih (F.mem_of_anc (.up hc (.refl c)) hb)
    by_cases he : b = entry
    · -- the entry is its own parent
      obtain rfl : c = b := by rw [he, F.entry] at hc; rw [he, Option.some.inj hc]
      exact ⟨above, habove, hmem⟩
    have hlt := F.lt b c hc he
    refine ⟨b :: above, fun fuel hfuel => ?_, fun a => ?_⟩
    · obtain ⟨fuel, rfl⟩ := Nat.exists_eq_succ_of_ne_zero (Nat.ne_zero_of_lt (hlt.trans_le hfuel))
      rw [ancestors, idom?, if_neg he, hc]
      simp only [habove fuel (by omega)]
    · rw [mem_cons, hmem, anc_iff_of_up hc]

section

variable (ht : t.Sound f) (hpreds : f.ExactPreds)
  (hexist : ∀ b c, c ∈ f.program.successors b → c.index < f.blocks.size)

include ht hpreds hexist

/-- What is above a block in the tree is what every path to it passes. -/
theorem Sound.anc_iff (hb : b ∈ t.order) : Anc t.parents.parent? a b ↔ f.program.Dominates a b := by
  have hi := ht.immediate
  refine ⟨fun h visited hpath => ht.mem_of_anc hpreds hexist hpath h, fun h => ?_⟩
  by_contra hanc
  obtain ⟨visited, hpath, hnot⟩ := (hi.avoids a b (hi.all b hb) hanc).path hpreds
  exact hnot (h visited hpath)

theorem Sound.idom?_eq_some :
    t.idom? b = some a ↔ f.program.Reachable b ∧ f.program.ClosestDominator a b := by
  have hi := ht.immediate
  have F := hi.forest
  have hanc : ∀ {a b}, b ∈ t.order → (Anc t.parents.parent? a b ↔ _) := ht.anc_iff hpreds hexist
  rw [← ht.ordered.mem, idom?]
  constructor
  · split
    · exact fun h => absurd h (by simp)
    next hne =>
      intro h
      have hb := F.mem b a h
      have hba := F.mem_of_anc (.up h (.refl a)) hb
      refine ⟨hb, ?_, (hanc hb).mp (.up h (.refl a)), fun d hd hdb => ?_⟩
      · rintro rfl
        exact F.not_anc_parent hne h (.refl _)
      · exact (hanc hba).mp (((anc_iff_of_up h).mp ((hanc hb).mpr hdb)).resolve_left hd)
  · rintro ⟨hb, hab, hdom, hclosest⟩
    have habove := (hanc hb).mpr hdom
    have hne : b ≠ entry := by
      rintro rfl
      exact hab (F.anc_entry.mp habove)
    obtain ⟨c, hc⟩ := Option.isSome_iff_exists.mp (hi.all b hb)
    have hcb : c ≠ b := by
      rintro rfl
      exact F.not_anc_parent hne hc (.refl _)
    have hao := F.mem_of_anc habove hb
    have hac := ((anc_iff_of_up hc).mp habove).resolve_left hab
    have hca := (hanc hao).mpr (hclosest c hcb ((hanc hb).mp (.up hc (.refl c))))
    rw [if_neg hne, hc, F.antisymm hca hac hao]

theorem Sound.mem_frontier_iff (hfirst : f.predecessors entry = []) :
    b ∈ t.frontier a ↔ f.program.Reachable b ∧ f.program.AtFrontier a b := by
  have hi := ht.immediate
  have F := hi.forest
  have hanc : ∀ {a b}, b ∈ t.order → (Anc t.parents.parent? a b ↔ _) := ht.anc_iff hpreds hexist
  rw [← ht.ordered.mem]
  constructor
  · intro h
    obtain ⟨hb, hjoin⟩ := ht.joins h
    cases (ht.ordered.mem b).mp hb with
    | entry =>
      rw [hfirst] at hjoin
      cases hjoin
    | @step _ _ hr hrb =>
      have hpred : ∀ q, q ∈ f.predecessors b ↔ _ := fun q => hpreds.mem b q (hexist _ b hrb)
      have hne : b ≠ entry := by
        rintro rfl
        exact not_mem_nil (hfirst ▸ (hpred _).mpr hrb)
      obtain ⟨c, hc, -⟩ := hi.nearest b hb hne
      obtain ⟨q, hq, hqo, haq, hca, hac⟩ := (ht.frontier hb hne hc).mp h
      refine ⟨hb, ⟨q, (ht.ordered.mem q).mp hqo, (hpred q).mp hq, (hanc hqo).mp haq⟩, ?_⟩
      rintro ⟨hab, hdom⟩
      have habove := ((anc_iff_of_up hc).mp ((hanc hb).mpr hdom)).resolve_left hab
      exact hac (F.antisymm habove hca (F.mem_of_anc hca (F.mem_of_anc haq hqo)))
  · rintro ⟨hb, ⟨q, hqr, hqb, haq⟩, hnot⟩
    have hqo := (ht.ordered.mem q).mpr hqr
    have hq : q ∈ f.predecessors b := (hpreds.mem b q (hexist q b hqb)).mpr hqb
    have hne : b ≠ entry := by
      rintro rfl
      exact not_mem_nil (hfirst ▸ hq)
    obtain ⟨c, hc, -⟩ := hi.nearest b hb hne
    have haq := (hanc hqo).mpr haq
    have hnac : ¬Anc t.parents.parent? a c := by
      intro hac
      refine hnot ⟨?_, (hanc hb).mp (.up hc hac)⟩
      rintro rfl
      exact F.not_anc_parent hne hc hac
    have hca := (haq.total (hi.anc_pred hne hc hq hqo)).resolve_left hnac
    refine (ht.frontier hb hne hc).mpr ⟨q, hq, hqo, haq, hca, ?_⟩
    rintro rfl
    exact hnac (.refl _)

end

/-- The dominator tree is the textbook one: the iteration comes to rest, and no walk up the tree
runs out of fuel; reachable are the blocks that paths from the entry lead to; the dominators of a
block are what all these paths pass, its immediate dominator is the closest strict one; and its
frontier is where its dominance ends. -/
theorem compute_exact (h : f.WellFormed) (hentry : 0 < f.blocks.size)
    (hexist : ∀ b c, c ∈ f.program.successors b → c.index < f.blocks.size)
    (hfirst : f.computePredecessors.predecessors entry = []) :
    let t := compute f.computePredecessors
    let p := f.computePredecessors.program
    Parents.round f.computePredecessors t.order t.parents = t.parents ∧
      (∀ a b, p.Reachable a → p.Reachable b → ∀ fuel, 2 * t.parents.size + 2 ≤ fuel →
        t.parents.intersect t.order fuel a b =
          t.parents.intersect t.order (2 * t.parents.size + 2) a b) ∧
      (∀ b c q, t.idom? b = some c → p.Reachable q → b ∈ p.successors q →
        ∀ fuel, t.parents.size + 1 ≤ fuel →
          t.parents.path c fuel q = t.parents.path c (t.parents.size + 1) q) ∧
      (∀ b, p.Reachable b → ∀ fuel, t.parents.size ≤ fuel →
        t.ancestors fuel b = t.ancestors t.parents.size b) ∧
      (∀ b, t.isReachable b = true ↔ ∃ visited, p.Path visited b) ∧
      (∀ a b, t.dominates a b = true ↔ p.Reachable b ∧ p.Dominates a b) ∧
      (∀ a b, t.idom? b = some a ↔ p.Reachable b ∧ p.ClosestDominator a b) ∧
      (∀ b, t.idom? b = none ↔ p.Reachable b → b = entry) ∧
      (∀ a b, b ∈ t.children a ↔ t.idom? b = some a) ∧
      ∀ a, (t.frontier a).Nodup ∧ ∀ b, b ∈ t.frontier a ↔ p.Reachable b ∧ p.AtFrontier a b := by
  intro t p
  have hpreds := h.exactPreds
  have hg := h.computePredecessors
  rw [← Function.size_computePredecessors] at hentry
  simp only [← h.successors_computePredecessors, ← Function.size_computePredecessors (f := f)]
    at hexist
  have ht : t.Sound f.computePredecessors := sound hg hpreds hentry hexist
  have ho := ht.ordered
  have hparents : ∀ b, b ∈ t.order ↔ (t.parents.parent? b).isSome := by
    refine fun b => ⟨ht.immediate.all b, fun hb => ?_⟩
    obtain ⟨c, hc⟩ := Option.isSome_iff_exists.mp hb
    exact ht.immediate.forest.mem b c hc
  have hidx : ∀ {b}, b ∈ t.order → t.order.idxOf b < t.parents.size := idxOf_lt_size ho
  refine ⟨ht.stable, fun a b ha hb fuel hfuel => ?_, fun b c q hc hq hb fuel hfuel => ?_,
    fun b hb fuel hfuel => ?_, fun b => ?_, fun a b => ?_,
    fun a b => ht.idom?_eq_some hpreds hexist, fun b => ?_, fun a b => ?_,
    fun a => ⟨?_, fun b => ht.mem_frontier_iff hpreds hexist hfirst⟩⟩
  · rw [← ho.mem] at ha hb
    obtain ⟨rest, hrest⟩ := ho.head
    have hentry : t.order.idxOf entry = 0 := by rw [hrest, idxOf_cons_self]
    have ha' := hidx ha
    have hb' := hidx hb
    exact Parents.intersect_of_le ht.immediate.forest (ht.immediate.all a ha)
      (ht.immediate.all b hb) hentry (by omega) hfuel
  · rw [← ho.mem] at hq
    obtain ⟨hne, hc⟩ := Option.ite_none_left_eq_some.mp hc
    have hbq := (hpreds.mem b q (hexist q b hb)).mpr hb
    obtain ⟨way, hway, -⟩ := Parents.path_spec ht.immediate.forest hq
      (ht.immediate.anc_pred hne hc hbq hq)
    have hlt := Nat.lt_succ_of_lt (hidx hq)
    rw [hway _ hlt, hway _ (hlt.trans_le hfuel)]
  · rw [← ho.mem] at hb
    obtain ⟨above, habove, -⟩ := ht.ancestors_spec hb
    rw [habove _ (hidx hb).le, habove _ ((hidx hb).le.trans hfuel)]
  · rw [isReachable, contains_iff_mem, ho.mem]
    exact ⟨fun hb => hb.path, fun ⟨_, hpath⟩ => hpath.reachable⟩
  · rw [dominates, isReachable, Bool.and_eq_true, contains_iff_mem, contains_iff_mem, ← ho.mem]
    refine and_congr_right fun hb => ?_
    obtain ⟨above, habove, hmem⟩ := ht.ancestors_spec hb
    rw [habove _ (hidx hb).le, hmem, ht.anc_iff hpreds hexist hb]
  · rw [idom?, ← ho.mem, hparents]
    split
    next he => simp [he]
    next hne => simp [hne]
  · obtain ⟨rest, hrest⟩ := ho.head
    rw [mem_children hrest ho.nodup, idom?, hparents]
    split
    next he => simp [he]
    next hne =>
      refine ⟨fun hb => hb.2.2, fun hb => ⟨?_, hne, hb⟩⟩
      rw [hb]
      rfl
  · have hsub : (t.joins.map (·.1)).Sublist t.order := by
      refine (filter_sublist.map _).trans ?_
      simp [Function.comp_def, t, compute]
    exact ho.nodup.sublist ((filter_sublist.map _).trans hsub)

theorem compute_exact_countingLoop :
    let p := SSA.countingLoop.computePredecessors.program
    p.ClosestDominator ⟨1⟩ ⟨3⟩ ∧ p.AtFrontier ⟨2⟩ ⟨1⟩ := by
  have h := SSA.constructible_countingLoop
  obtain ⟨-, -, -, -, -, -, hidom, -, -, hfrontier⟩ :=
    compute_exact h.wf h.entry h.exist (by decide)
  exact ⟨((hidom ⟨1⟩ ⟨3⟩).mp (by decide)).2, (((hfrontier ⟨2⟩).2 ⟨1⟩).mp (by decide)).2⟩

end DominatorTree

/-! ### Live locals -/

/-- Liveness is exact: the iteration comes to rest, and then a local is live before a block if some
path from there reads it before any operation writes it, and live after a block if it is live before
a successor. -/
theorem Liveness.compute_iff_exposed {f : Function} (h : f.WellFormed)
    (hexist : ∀ b c, c ∈ f.program.successors b → c.index < f.blocks.size) :
    (∃ n, compute f = (round f (effects f))^[n] (start f)) ∧
      round f (effects f) (compute f) = compute f ∧
      ∀ b : BlockId, b.index < f.blocks.size → ∀ l,
        (((compute f).before b).contains l = true ↔ f.Exposed l b) ∧
        (((compute f).after b).contains l = true ↔
          ∃ c ∈ f.successors b, ((compute f).before c).contains l = true) := by
  refine ⟨exists_iterate _ _, (compute_spec f).2.2, fun b hb l => ⟨?_, contains_after hb⟩⟩
  refine contains_before h.localsInRange hb fun b c hc => hexist b c ?_
  exact h.successors_eq b ▸ hc

def handedOn : Function :=
  (Function.frame [(.gpr 0, .i64)] [] [.i64] 1).pushAll [
    (⟨0⟩, ⟨.copy, some ⟨1⟩, [⟨0⟩]⟩), (⟨0⟩, ⟨.branch ⟨1⟩, none, []⟩),
    (⟨1⟩, ⟨.dispatch, none, [⟨1⟩]⟩)]

theorem Liveness.compute_iff_exposed_handedOn :
    handedOn.Exposed 0 ⟨1⟩ ∧ ¬handedOn.Exposed 0 ⟨0⟩ := by
  have h : SSA.Constructible handedOn := by
    refine .of_blocks ((Function.wf_frame _ _ _ _).pushAll ?_) ?_ ?_ ?_
    all_goals decide
  obtain ⟨-, -, hlive⟩ := compute_iff_exposed h.wf h.exist
  refine ⟨(hlive ⟨1⟩ (by decide) 0).1.mp (by decide +kernel), fun hl => ?_⟩
  exact absurd ((hlive ⟨0⟩ (by decide) 0).1.mpr hl) (by decide +kernel)

end Dynarec.IR
