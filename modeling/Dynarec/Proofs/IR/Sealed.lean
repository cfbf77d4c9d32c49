import Dynarec.Proofs.IR.ConstructedForm
import Dynarec.Proofs.IR.FixedPoint

/-!
# Sealed functions

Construction leaves a function in which all blocks end in a terminator, also those that cannot be
reached, the predecessor lists are exact and the phis of a block stand in front. The optimizer keeps
the first two.
-/

namespace Dynarec.IR

namespace Function

variable {f g : Function}

structure Sealed (f : Function) : Prop where
  terminated : ∀ b, b.index < f.blocks.size → f.program.Terminated (f.program.code b)
  preds : f.ExactPreds
  exist : ∀ b c, c ∈ f.program.successors b → c.index < f.blocks.size

/-- Changes within blocks leave a function sealed. -/
theorem Sealed.congr (h : f.Sealed) (hblocks : g.blocks.size = f.blocks.size)
    (hpreds : g.program.preds = f.program.preds)
    (hsucc : ∀ b, g.program.successors b = f.program.successors b)
    (hterm : ∀ b, f.program.Terminated (f.program.code b) →
      g.program.Terminated (g.program.code b)) : g.Sealed where
  terminated b hb := hterm b (h.terminated b (hblocks ▸ hb))
  preds := {
    mem := by
      intro b c hb
      rw [hpreds, hsucc]
      exact h.preds.mem b c (hblocks ▸ hb)
    nodup := by
      rw [hpreds]
      exact h.preds.nodup }
  exist b c hc := by
    rw [hsucc] at hc
    rw [hblocks]
    exact h.exist b c hc

/-- Terminators stay and lead where they led. -/
theorem Optimizes.successors (h : Optimizes f g) (hf : f.WellFormed) (hs : f.Sealed) (b : BlockId) :
    g.program.successors b = f.program.successors b := by
  by_cases hb : b.index < f.blocks.size
  · have hterm := hs.terminated b hb
    have hterm' := h.reduces.terminated hterm
    obtain ⟨first, last, hcode, hlast⟩ := hterm'.exists_last
    have hmem := mem_of_split hcode
    have hinst : (g.program.stmt last).inst = (f.program.stmt last).inst := by
      have hstmt := h.reduces.stmt b last hmem
      generalize g.program.stmt last = s at hstmt hlast
      cases hstmt with
      | keep _ => rfl
      | collapse _ => cases hlast
    rw [hterm'.successors_eq hmem hlast, hinst,
      hterm.successors_eq ((h.reduces.code b).subset hmem) (hinst ▸ hlast)]
  · have hb' : ¬b.index < g.blocks.size := by rwa [h.blocks]
    simp only [Program.successors, hf.code_eq_nil hb, h.wf.code_eq_nil hb', List.getLast?_nil]

theorem Optimizes.sealed (h : Optimizes f g) (hf : f.WellFormed) (hs : f.Sealed) : g.Sealed :=
  hs.congr h.blocks h.reduces.preds (h.successors hf hs) fun _ hterm => h.reduces.terminated hterm

end Function

namespace SSA

open Renaming

variable {f t : Function} {b : BlockId}

section

variable (R : Renamed f t)

include R

theorem Renamed.blocks : t.blocks.size = f.blocks.size :=
  R.stored.pools.blocks.trans R.stage.blocks

theorem Renamed.phisFirst (hr : Ready f) : t.program.PhisFirst := by
  intro b done id rest hcode hphi x hx
  obtain ⟨phis, others, hsplit, hphis, hothers, -⟩ := R.phis hr b
  rw [hcode] at hsplit
  rcases append_eq_cases hsplit.symm with ⟨later, hl⟩ | ⟨pre, -, hl⟩
  · exact hphis x (hl ▸ List.mem_append_left _ hx)
  · exact absurd hphi (hothers id (mem_of_split hl))

theorem Renamed.phisLead (hr : Ready f) : t.program.PhisLead := by
  intro b done id rest hcode hphi x hx
  have hmem : x ∈ t.program.code b := by
    rw [hcode]
    rcases List.mem_cons.mp hx with rfl | hx
    · simp
    · exact List.mem_append_left _ hx
  have hxphi : (t.program.stmt x).inst = .phi := by
    rcases List.mem_cons.mp hx with rfl | hx
    · exact hphi
    · exact R.phisFirst hr b done id rest hcode hphi x hx
  obtain ⟨e, -, heq⟩ := R.phi hr hmem hxphi
  rw [heq]
  exact ⟨rfl, .inl rfl⟩

theorem Renamed.successors_eq (hr : Ready f) (b : BlockId) :
    t.program.successors b = f.program.successors b := by
  by_cases hb : f.program.Reachable b
  · exact R.successors hr hb
  · obtain ⟨hcode, hstmt⟩ := R.unreachable hr hb
    exact Program.successors_congr hcode hstmt

omit R in
theorem Ready.sealed (hr : Ready f)
    (hterm : ∀ b, b.index < f.blocks.size → f.program.Terminated (f.program.code b)) : f.Sealed :=
  ⟨hterm, hr.preds, hr.exist⟩

theorem Renamed.sealed (hr : Ready f) (hf : f.Sealed) : t.Sealed := by
  refine hf.congr R.blocks R.preds (R.successors_eq hr) fun b hterm => ?_
  by_cases hreach : f.program.Reachable b
  · exact R.terminated hr hreach hterm
  · obtain ⟨hcode, hstmt⟩ := R.unreachable hr hreach
    rw [hcode]
    exact hterm.congr fun id hid => by rw [hstmt id hid]

end

namespace Constructible

theorem terminated_trimmed (h : Constructible f) (hb : b.index < (trimmed f).blocks.size) :
    (trimmed f).program.Terminated ((trimmed f).program.code b) := by
  by_cases hreach : f.program.Reachable b
  · exact h.alike_trimmed.terminated hreach (h.terminated b (h.lt_of_reachable hreach))
  · rw [h.size_trimmed] at hb
    obtain ⟨id, pc, hcode, hstmt, -⟩ := h.cut.dead b
      (by rwa [Function.size_computePredecessors])
      fun hr => hreach (h.reachable_computePredecessors.mp hr)
    rw [h.code_trimmed, hcode]
    change ((trimmed f).program.stmt id).inst.isTerminator = true
    rw [show (trimmed f).program.stmt id = _ from hstmt]
    rfl

/-- Construction succeeds, with phis in front of everything else. -/
theorem construct_sealed (h : Constructible f) :
    (construct f).1 = .ok () ∧ (construct f).2.Sealed ∧ (construct f).2.program.PhisFirst ∧
      (construct f).2.program.PhisLead := by
  obtain ⟨hok, ⟨R⟩⟩ := h.ready.rename
  rw [h.construct_eq]
  exact ⟨hok, R.sealed h.ready (h.ready.sealed fun b hb => h.terminated_trimmed hb),
    R.phisFirst h.ready, R.phisLead h.ready⟩

/-- Where no ways meet there is no phi. -/
theorem construct_no_phi (h : Constructible f)
    (hone : ∀ b, (f.computePredecessors.predecessors b).length ≤ 1) {id : OpId}
    (hid : id ∈ (construct f).2.program.code b) :
    ((construct f).2.program.stmt id).inst ≠ .phi := by
  obtain ⟨R⟩ := h.renamed
  intro hphi
  have hjoin := R.two_le_preds h.ready hid hphi
  exact absurd (hjoin.trans ((h.length_preds_trimmed b).trans (hone b))) (Nat.not_succ_le_self 1)

end Constructible

end SSA

end Dynarec.IR
