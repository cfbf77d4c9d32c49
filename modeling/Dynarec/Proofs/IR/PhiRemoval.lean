import Dynarec.Proofs.IR.Evaluation
import Dynarec.Proofs.IR.Preservation
import Dynarec.Proofs.IR.Stages

/-!
# Functions without phis

Where phis stand at the head of their blocks, deconstruction replaces all of them. The result runs
as the program did in which the phis of a block all take their values at once.
-/

namespace Dynarec.IR.SSA

variable {f g : Function}

/-- A function in static single assignment form with its phis in front, over any control flow. -/
structure Resolvable (f : Function) : Prop where
  wf : f.WellFormed
  entry : 0 < f.blocks.size
  /-- Every block has its terminator and knows its predecessors. -/
  sealed : f.Sealed
  first : f.program.PhisFirst
  arity : ∀ b, ∀ id ∈ f.program.code b, (f.program.stmt id).inst = .phi →
    (f.program.stmt id).sources.length = (f.program.preds b).length
  result : ∀ b, ∀ id ∈ f.program.code b, (f.program.stmt id).inst = .phi →
    ∃ d, (f.program.stmt id).dest = some d
  dest : ∀ b, ∀ id ∈ f.program.code b, ∀ d, (f.program.stmt id).dest = some d →
    ∃ i, f.program.kind d = .local_ i
  source : ∀ b, ∀ id ∈ f.program.code b, ∀ o ∈ (f.program.stmt id).sources,
    ∀ r, f.program.kind o ≠ .register r
  once : f.program.DefinedOnce

namespace Resolvable

variable (h : Resolvable f)

include h

theorem versioned : f.program.Versioned where
  terminated b hb := by
    refine h.sealed.terminated b ?_
    cases hb with
    | entry => exact h.entry
    | step _ hc => exact h.sealed.exist _ b hc
  preds b c _ hc := (h.sealed.preds.mem c b (h.sealed.exist b c hc)).mpr hc
  arity := h.arity
  dest := h.dest
  once := h.once

variable {copies : BlockId → List OpId} {temp : OpId → OperandId}
  (hg : Resolving f g (leadingPhis f) copies temp)

include hg

/-- The operations are old ones with their operands, copies of temporaries, and copies to them. -/
theorem executable : g.Executable where
  wf := hg.wf
  sealed := hg.sealed h.sealed h.wf
  phi b id hid := hg.no_phi h.first hid
  dest b id hid d hd := by
    have hold : ∀ e ∈ f.program.code b, (f.program.stmt e).dest = some d →
        ∃ i, g.program.kind d = .local_ i := fun e he hd => by
      rw [hg.kind d (h.wf.dest_lt he hd)]
      exact h.dest b e he d hd
    rcases hg.resolves.mem_code_iff.mp hid with hmem | hmem
    · by_cases hhead : id ∈ leadingPhis f b
      · rw [hg.resolves.resolved b id hhead] at hd
        exact hold id hmem hd
      · rw [hg.resolves.other b id hmem hhead] at hd
        exact hold id hmem hd
    · obtain ⟨c, e, he, k, s, -, -, hstmt⟩ := hg.resolves.copy b id hmem
      rw [hstmt] at hd
      cases hd
      exact hg.resolves.local_ c e he
  source b id hid o ho r := by
    have hold : ∀ c, ∀ e ∈ f.program.code c, o ∈ (f.program.stmt e).sources →
        g.program.kind o ≠ .register r := fun c e he ho => by
      rw [hg.kind o (h.wf.source_lt he ho)]
      exact h.source c e he o ho r
    rcases hg.resolves.mem_code_iff.mp hid with hmem | hmem
    · by_cases hhead : id ∈ leadingPhis f b
      · rw [hg.resolves.resolved b id hhead] at ho
        obtain ⟨i, hi⟩ := hg.resolves.local_ b id hhead
        simp [List.mem_singleton.mp ho, hi]
      · rw [hg.resolves.other b id hmem hhead] at ho
        exact hold b id hmem ho
    · obtain ⟨c, e, he, k, s, -, hs, hstmt⟩ := hg.resolves.copy b id hmem
      rw [hstmt] at ho
      rw [List.mem_singleton.mp ho] at hold ⊢
      exact hold c e (hg.resolves.mem_code he) (List.mem_of_getElem? hs)

end Resolvable

/-- What construction gives. -/
theorem Constructible.resolvable (h : Constructible f) (hscoped : f.program.LocalsScoped) :
    Resolvable (construct f).2 := by
  have hform := h.singleAssignment hscoped
  obtain ⟨-, hsealed, hfirst, hlead⟩ := h.construct_sealed
  obtain ⟨first, last, hcode, -⟩ := (hform.terminated _ .entry).exists_last
  have hmem := mem_of_split hcode
  exact ⟨h.wf_construct, h.wf_construct.lt_blocks hmem, hsealed, hfirst, hform.arity,
    hlead.dest, hform.dest, hform.source, hform.once⟩

/-- Deconstruction succeeds and leaves no phi. The result passes the checks, shows every host what
the program with phis shows it, and leaves in the same way with the same world when it is run. -/
theorem deconstruct_preserves_behaviour (h : Resolvable f) : ∃ count g,
    deconstruct f = (.ok count, g) ∧
      (∀ b, ∀ id ∈ g.program.code b, (g.program.stmt id).inst ≠ .phi) ∧
      g.verify = .ok () ∧
      (∀ (ω : Type) (host : Host ω) (w : ω) (n : Nat),
        Outcome.Similar Eq (f.program.run host w n) (g.program.run host w n)) ∧
      ∀ (ω : Type) (native : Native ω) (w : ω) (n : Nat),
        g.run native n w = (f.program.run native.host w n).left? := by
  obtain ⟨count, g, copies, temp, hrun, hg⟩ := deconstruct_resolving h.wf h.sealed h.result
  have hexec := h.executable hg
  have hsimilar : ∀ (ω : Type) (host : Host ω) (w : ω) (n : Nat),
      Outcome.Similar Eq (f.program.run host w n) (g.program.run host w n) := fun ω host w n =>
    hg.similar h.wf h.sealed h.versioned host.respects_eq w n
  refine ⟨count, g, hrun, hexec.phi, ?_, hsimilar, fun ω native w n => ?_⟩
  · exact hexec.wf.verify_eq_ok hexec.sealed fun b id hid hphi => absurd hphi (hexec.phi b id hid)
  · rw [hexec.run_eq native n w]
    exact (hsimilar ω native.host w n).left?_eq

/-- The phis of a loop, before and after their replacement. -/
theorem deconstruct_preserves_countingLoop :
    Resolvable (construct countingLoop).2 ∧ ∃ count g,
      deconstruct (construct countingLoop).2 = (.ok count, g) ∧
      ∀ (ω : Type) (native : Native ω) (w : ω) (n : Nat), g.run native n w =
        ((construct countingLoop).2.program.run native.host w n).left? := by
  have h := constructible_countingLoop.resolvable Function.localsScoped_countingLoop
  obtain ⟨count, g, hrun, -, -, -, hsame⟩ := deconstruct_preserves_behaviour h
  exact ⟨h, count, g, hrun, hsame⟩

end Dynarec.IR.SSA
