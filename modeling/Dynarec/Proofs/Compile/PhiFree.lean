import Dynarec.Compile
import Dynarec.Proofs.Host.Lowering
import Dynarec.Proofs.IR.Stages
import Dynarec.Proofs.Lift.Function

/-!
# Decoded blocks on their way to code generation

All stages of the compilation of a decoded block succeed up to code generation, and the function
that code is generated from passes the checks. It has no phis, unless the optimizer ran out of
rounds: a phi that has become a copy by then may hide another one behind it. Only conditional
instructions make ways meet, so A64 blocks never have a phi.
-/

namespace Dynarec.Compilation

open Guest (Block CodeSource Mode)
open IR (Function)

variable {σ : Type} {source : CodeSource σ} {mode : Mode} {address : UInt64} {limit : Nat}
  {s s' : σ} {block : Block}

section Decoded

variable (h : Block.decode source mode address limit s = (.ok block, s')) (options : Lift.Options)

include h

/-- The function of a decoded block. -/
theorem draft_of_decode :
    IR.Draft (Lift.registerTy mode) (mode = .a32) (Lift.function block mode options) [] :=
  (Lift.draft_function (Lift.proper_of_consecutive (Block.decode_consecutive h).2) options).1

theorem constructible_of_decode : IR.SSA.Constructible (Lift.function block mode options) :=
  (draft_of_decode h options).constructible (Lift.registerTy_width mode)

/-- The stages of a decoded block; phis need a join. -/
theorem stages_of_decode (table : Code.AddressTable) : ∃ ssa optimized n,
    (ofBlock block mode options table).ssa = .ok ssa ∧
      (ofBlock block mode options table).optimizer = (ssa.optimize options.tier).1 ∧
      (ssa.optimize options.tier).2 = optimized ∧
      (ofBlock block mode options table).phis = .ok n ∧
      IR.SSA.Stages options.tier ssa optimized (ofBlock block mode options table).final ∧
      (mode ≠ .a32 → ∀ b, ∀ id ∈ ssa.program.code b, (ssa.program.stmt id).inst ≠ .phi) ∧
      ∃ session, (ofBlock block mode options table).generated =
        Host.generate (ofBlock block mode options table).final table session := by
  have hdraft := draft_of_decode h options
  have hcon := constructible_of_decode h options
  obtain ⟨ssa, optimized, final, n, hssa, hopt, hrun, hstages⟩ :=
    hcon.stages hdraft.locals options.tier
  have hphis : mode ≠ .a32 → ∀ b, ∀ id ∈ ssa.program.code b, (ssa.program.stmt id).inst ≠ .phi := by
    intro hmode b id hid
    have heq : (IR.SSA.construct (Lift.function block mode options)).2 = ssa :=
      congrArg Prod.snd hssa
    subst heq
    exact hcon.construct_no_phi (hdraft.length_preds_le_one hmode) hid
  refine ⟨ssa, optimized, n, ?_⟩
  unfold ofBlock
  simp only [hssa, hopt, hrun]
  exact ⟨rfl, trivial, trivial, trivial, hstages, hphis, _, rfl⟩

/-- Every decoded block comes through construction, optimization and the replacement of phis, and
what is left of it passes the checks. No phi is left and none is reported by code generation, unless
the block is A32 code and the optimizer used all its rounds without coming to rest. -/
theorem decoded_block_survives (table : Code.AddressTable) :
    (∃ n, (ofBlock block mode options table).phis = .ok n) ∧
      (ofBlock block mode options table).final.verify = .ok () ∧
      ∃ ssa, (ofBlock block mode options table).ssa = .ok ssa ∧
        (((∀ id, ((ofBlock block mode options table).final.operation id).live = true →
            ((ofBlock block mode options table).final.operation id).inst ≠ .phi) ∧
          (ofBlock block mode options table).generated.code ≠
            .error (.invalidIR "phi reached code generation")) ∨
        mode = .a32 ∧ options.tier = .optimized ∧
          (ofBlock block mode options table).optimizer.rounds = Function.maxRounds ∧
          (ssa.optimize options.tier).2.propagateCopies.1 ≠ 0) := by
  obtain ⟨ssa, optimized, n, hssa, hoptimizer, hopt, hphis, hstages, hnone, session, hgen⟩ :=
    stages_of_decode h options table
  refine ⟨⟨n, hphis⟩, hstages.verify_eq_ok, ssa, hssa, ?_⟩
  rw [hgen, hoptimizer, hopt]
  have hfirst : optimized.program.PhisFirst ∨ mode = .a32 ∧ options.tier = .optimized ∧
      (ssa.optimize options.tier).1.rounds = Function.maxRounds ∧
      optimized.propagateCopies.1 ≠ 0 := by
    by_cases hmode : mode = .a32
    · exact hstages.first.imp_right fun hrounds => ⟨hmode, hrounds⟩
    · exact .inl (hstages.phisFirst_of_none (hnone hmode))
  refine hfirst.imp_left fun hfirst => ⟨fun id hlive => ?_, ?_⟩
  · obtain ⟨copies, temp, hres⟩ := hstages.resolving
    exact hstages.no_phi hfirst _ id (hres.wf.mem_code_iff.mpr ⟨hlive, rfl⟩)
  · exact Host.generate_ne_phi table session (hstages.no_phi hfirst)

end Decoded

/-- A load if equal with write-back, then a supervisor call. -/
def loadIfEqual : CodeSource Unit where
  fetch a s := (.ok (if a = 0x1000 then 0x04910000 else 0xef000000), s)
  isEntry _ _ := false

theorem loadIfEqual_survives : ∃ block,
    Block.decode loadIfEqual .a32 0x1000 8 () = (.ok block, ()) ∧ block.opcodes.length = 2 ∧
      ∀ table, (ofBlock block .a32 ⟨.fast, 0, 0⟩ table).final.verify = .ok () ∧
        (ofBlock block .a32 ⟨.fast, 0, 0⟩ table).generated.code ≠
          .error (.invalidIR "phi reached code generation") := by
  obtain ⟨block, hdecode, hlength⟩ : ∃ block,
      Block.decode loadIfEqual .a32 0x1000 8 () = (.ok block, ()) ∧ block.opcodes.length = 2 :=
    ⟨_, rfl, rfl⟩
  refine ⟨block, hdecode, hlength, fun table => ?_⟩
  obtain ⟨-, hverify, ssa, -, hcases⟩ := decoded_block_survives hdecode ⟨.fast, 0, 0⟩ table
  have hcode := hcases.resolve_right (by simp)
  exact ⟨hverify, hcode.2⟩

/-- An address and a load if equal through it, with write-back. -/
def loadThrough : CodeSource Unit where
  fetch a s := (.ok (if a = 0x1000 then 0xe3a01a02 else 0x04910000), s)
  isEntry _ _ := false

/-- Where the rounds end too early, a phi is left that code generation reports, though all checks
pass. One conditional load takes more than two rounds, and each further one in a row two more: 32 of
them are not done when all rounds have run. -/
theorem phi_left_behind_copy : ∃ block final,
    Block.decode loadThrough .a32 0x1000 2 () = (.ok block, ()) ∧
      final = (IR.SSA.deconstruct (Function.optimizeRounds 2
        ({}, (IR.SSA.construct (Lift.function block .a32 ⟨.optimized, 0, 0⟩)).2)).2).2 ∧
      final.verify = .ok () ∧ (Host.generate final (.ofMode .a32 0xf111) default).code =
        .error (.invalidIR "phi reached code generation") := by
  refine ⟨_, _, rfl, rfl, ?_, ?_⟩
  all_goals decide +kernel

end Dynarec.Compilation
