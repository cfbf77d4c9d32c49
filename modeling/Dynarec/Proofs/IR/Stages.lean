import Dynarec.Proofs.IR.Deconstruction
import Dynarec.Proofs.IR.Verified

/-!
# The stages of a function

From a constructible function to the one that code is generated from: construction, optimization and
the replacement of phis all succeed, each result passes the checks, and the last two behave like the
first.
-/

namespace Dynarec.IR.SSA

open IR.Function

variable {f : Function}

/-- What the stages after construction come to: the function in static single assignment form, the
optimized one and the one whose leading phis have been replaced. -/
structure Stages (tier : Tier) (ssa optimized final : Function) : Prop where
  wf : optimized.WellFormed
  form : optimized.program.SingleAssignment
  sealed : optimized.Sealed
  optimizes : Optimizes ssa optimized
  resolving : ∃ copies temp, Resolving optimized final (leadingPhis optimized) copies temp
  /-- Phis stand in front, unless the optimizer ran out of rounds. -/
  first : optimized.program.PhisFirst ∨ tier = .optimized ∧
    (ssa.optimize tier).1.rounds = maxRounds ∧ optimized.propagateCopies.1 ≠ 0

theorem Constructible.stages (h : Constructible f) (hlocals : f.program.LocalsScoped)
    (tier : Tier) :
    ∃ ssa optimized final n, construct f = (.ok (), ssa) ∧ (ssa.optimize tier).2 = optimized ∧
      deconstruct optimized = (.ok n, final) ∧ Stages tier ssa optimized final := by
  obtain ⟨hok, hsealed, hfirst, hlead⟩ := h.construct_sealed
  have hwell := h.wf_construct
  have hform := h.singleAssignment hlocals
  obtain ⟨ssa, hssa⟩ : ∃ ssa, (construct f).2 = ssa := ⟨_, rfl⟩
  rw [hssa] at hsealed hfirst hlead hwell hform
  have hopt := optimizes_optimize hwell hform tier
  have hphis := phisFirst_optimize hwell hform hlead hfirst tier
  obtain ⟨optimized, hoptimized⟩ : ∃ g, (ssa.optimize tier).2 = g := ⟨_, rfl⟩
  rw [hoptimized] at hopt hphis
  have hsealed' := hopt.sealed hwell hsealed
  obtain ⟨n, final, copies, temp, hrun, hres⟩ :=
    deconstruct_resolving hopt.wf hsealed' (hopt.reduces.phisLead hlead).dest
  exact ⟨ssa, optimized, final, n, Prod.ext hok hssa, hoptimized, hrun,
    hopt.wf, hopt.form, hsealed', hopt, ⟨copies, temp, hres⟩, hphis⟩

namespace Stages

variable {tier : Tier} {ssa optimized final : Function} (h : Stages tier ssa optimized final)

include h

/-- The last stage passes the checks, also if a phi is left. -/
theorem verify_eq_ok : final.verify = .ok () := by
  obtain ⟨copies, temp, hres⟩ := h.resolving
  refine hres.wf.verify_eq_ok (hres.sealed h.sealed h.wf) fun b id hid hphi => ?_
  obtain ⟨hmem, -, hstmt⟩ := hres.phi_left hid hphi
  rw [hstmt] at hphi ⊢
  rw [hres.resolves.preds]
  exact h.form.arity b id hmem hphi

/-- The optimizer makes no phis. -/
theorem phisFirst_of_none
    (hnone : ∀ b, ∀ id ∈ ssa.program.code b, (ssa.program.stmt id).inst ≠ .phi) :
    optimized.program.PhisFirst := by
  intro b done id rest hcode hphi
  have hid := mem_of_split hcode
  have hreduces := h.optimizes.reduces
  exact absurd ((hreduces.stmt b id hid).phi hphi) (hnone b id ((hreduces.code b).subset hid))

theorem no_phi (hfirst : optimized.program.PhisFirst) (b : BlockId) :
    ∀ id ∈ final.program.code b, (final.program.stmt id).inst ≠ .phi := by
  obtain ⟨copies, temp, hres⟩ := h.resolving
  exact fun id hid => hres.no_phi hfirst hid

theorem sameBehaviour : ssa.program.SameBehaviour final.program := by
  obtain ⟨copies, temp, hres⟩ := h.resolving
  exact h.optimizes.same.trans fun _ _ _ hb w n =>
    hres.similar h.wf h.sealed h.form.versioned hb.toRespects w n

end Stages

end Dynarec.IR.SSA
