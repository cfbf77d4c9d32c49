import Dynarec.Proofs.Lift.Values

/-!
# Conditional execution

An instruction of A32 with a condition does what the same operation does without one, or nothing,
wherever it stands in a block.
-/

namespace Dynarec.Lift

open Guest (BlockEnd Cond Opcode)
open IR (Host)

variable {ω : Type} {host : Host ω} {w w₀ : ω} {limit : UInt64}

/-- Codes go on after others that have come to their end. -/
theorem evalCodes_append {first : List Code} (rest : List Code)
    (h : ∀ limit, evalCodes host limit first w = (.dispatch limit, w₀)) :
    evalCodes host limit (first ++ rest) w = evalCodes host limit rest w₀ := by
  induction first generalizing w with
  | nil => rw [← show w = w₀ from congrArg Prod.snd (h 0), List.nil_append]
  | cons c first ih =>
    simp only [List.cons_append, evalCodes] at h ⊢
    cases hc : c.eval host w with
    | on temps w' =>
      simp only [hc] at h
      exact ih h
    | left how w' =>
      simp only [hc] at h
      cases (congrArg Prod.fst (h 0)).symm.trans (congrArg Prod.fst (h 1))

/-- What follows code depends on how it left, if it did, and on the world then. -/
theorem evalCodes_cons_congr {c c' : Code} (rest : List Code)
    (h : (c.eval host w).outcome = (c'.eval host w).outcome) :
    evalCodes host limit (c :: rest) w = evalCodes host limit (c' :: rest) w := by
  rw [evalCodes, evalCodes]
  cases hc : c.eval host w <;> cases hc' : c'.eval host w <;> rw [hc, hc'] at h <;> cases h <;> rfl

namespace A32

/-- The instruction of the word with another operation and no condition. -/
def unconditional (address : UInt64) (word : UInt32) (o : Guest.A32.Op) : Opcode :=
  ⟨address, word, .a32 ⟨.al, o⟩⟩

/-- Words outside the last two rows of conditions keep theirs. -/
theorem cond_decode (address : UInt64) {word : UInt32} (hword : Guest.bits word 31 28 < 14) :
    (Guest.A32.decode address word).cond = .ofBits (Guest.bits word 31 28) := by
  have hnv : ∀ k < 14, Cond.ofBits k ≠ .nv := by decide
  rw [Guest.A32.decode]
  split
  next heq => exact absurd heq (hnv _ hword)
  next => rfl

/-- Conditional execution is exact. Where the condition of the word does not hold, the function of
the block leaves as it would with an operation in its place that emits nothing; where it holds, as
with the same operation without a condition. -/
theorem conditional_execution (hb : host.SiteBlind) (before after : List Opcode)
    (hops : ∀ op ∈ before ++ after, op = .decode .a32 op.address op.word) (address : UInt64)
    (word : UInt32) (hword : Guest.bits word 31 28 < 14) (start : UInt64) (reason : BlockEnd)
    (options : Options)
    (hbefore : ∀ limit, evalCodes host limit (before.map (Lift.code .a32))
      (evalEntry host options start w) = (.dispatch limit, w₀))
    (hflags : (host.context w₀).FlagsNormal) :
    let holds := (host.context w₀).flags.holds (.ofBits (Guest.bits word 31 28))
    let o := if holds then (Guest.A32.decode address word).op else .nop
    Lift.code .a32 (unconditional address word .nop) = ⟨none, []⟩ ∧
      ∃ n m how w',
        (function ⟨start, before ++ .decode .a32 address word :: after, reason⟩ .a32
          options).program.run host w n = .left how w' ∧
        (function ⟨start, before ++ unconditional address word o :: after, reason⟩ .a32
          options).program.run host w m = .left how w' := by
  intro holds o
  refine ⟨rfl, ?_⟩
  have hall : ∀ op : Opcode, (∃ instr, op.instr = .a32 instr) →
      ∀ x ∈ Guest.Block.opcodes ⟨start, before ++ op :: after, reason⟩,
        (Lift.code .a32 x).Proper .a32 x.address := by
    intro op hop x hx
    have hinstr : ∃ instr, x.instr = .a32 instr := by
      rcases List.mem_cons.mp (List.perm_middle.mem_iff.mp hx) with rfl | hx
      · exact hop
      · exact ⟨_, congrArg Opcode.instr (hops x hx)⟩
    obtain ⟨instr, hinstr⟩ := hinstr
    rw [Lift.code, hinstr]
    exact proper_code x instr
  have hsame : evalBlock host ⟨start, before ++ .decode .a32 address word :: after, reason⟩ .a32
      options w = evalBlock host ⟨start, before ++ unconditional address word o :: after, reason⟩
      .a32 options w := by
    simp only [evalBlock, Guest.Block.limit, Guest.Block.size, List.length_append,
      List.length_cons, List.map_append, List.map_cons, evalCodes_append _ hbefore]
    refine evalCodes_cons_congr _ ?_
    change ((conditional .a32 _ (lift _ _)).eval host w₀).outcome =
      ((conditional .a32 .al (lift _ o)).eval host w₀).outcome
    rw [outcome_conditional _ _ _ _ (.inr hflags), outcome_conditional _ _ _ _ (.inl rfl),
      cond_decode address hword]
    cases hholds : holds with
    | false => exact (if_neg (Bool.eq_false_iff.mp hholds)).trans (by simp only [o, hholds]; rfl)
    | true => exact (if_pos hholds).trans (by simp only [o, hholds]; rfl)
  obtain ⟨n, hn⟩ := run_function hb (hall (.decode .a32 address word) ⟨_, rfl⟩) options w
  obtain ⟨m, hm⟩ := run_function hb (hall (unconditional address word o) ⟨_, rfl⟩) options w
  rw [hsame] at hn
  exact ⟨n, m, _, _, hn, hm⟩

/-- A host that records every request. -/
def recording : Host IR.Trace := (IR.Environment.mk fun _ _ _ => (0, .zero)).host some

/-- `cmp r0, #0` -/
def comparison : List Opcode := [.decode .a32 0x1000 0xe3500000]

def compared : IR.Trace := (evalCodes recording 0 (comparison.map (Lift.code .a32)) ⟨.zero, []⟩).2

/-- An instruction between a comparison and a supervisor call. -/
def between (op : Opcode) : IR.Function :=
  function ⟨0x1000, comparison ++ op :: [.decode .a32 0x1008 0xef000000], .controlFlow⟩ .a32
    ⟨.optimized, 0, 0⟩

/-- There `word` does what `o` does without a condition. -/
def ActsAs (word : UInt32) (o : Guest.A32.Op) : Prop :=
  ∃ n m how w,
    (between (.decode .a32 0x1004 word)).program.run recording ⟨.zero, []⟩ n = .left how w ∧
    (between (unconditional 0x1004 word o)).program.run recording ⟨.zero, []⟩ m = .left how w

/-- After `r0` has been found zero, `streq r0, [r1]` stores and `strne r0, [r1]` does nothing. -/
theorem conditional_execution_store :
    ActsAs 0x05810000 (Guest.A32.decode 0x1004 0x05810000).op ∧ ActsAs 0x15810000 .nop := by
  have hbefore : ∀ limit, evalCodes recording limit (comparison.map (Lift.code .a32))
      (evalEntry recording ⟨.optimized, 0, 0⟩ 0x1000 ⟨.zero, []⟩) = (.dispatch limit, compared) :=
    fun _ => rfl
  have hops : ∀ op ∈ comparison ++ [.decode .a32 0x1008 0xef000000],
      op = .decode .a32 op.address op.word := by
    simp only [comparison, List.cons_append, List.nil_append, List.forall_mem_cons]
    exact ⟨rfl, rfl, List.forall_mem_nil _⟩
  have hflags : (recording.context compared).FlagsNormal := by
    intro f
    cases f <;> decide +kernel
  have hall : ∀ word, Guest.bits word 31 28 < 14 → _ := fun word hword =>
    (conditional_execution (fun _ _ _ _ => rfl) _ _ hops 0x1004 word hword 0x1000 .controlFlow
      ⟨.optimized, 0, 0⟩ hbefore hflags).2
  constructor
  · have hholds : (recording.context compared).flags.holds
      (.ofBits (Guest.bits 0x05810000 31 28)) = true := by decide +kernel
    have hrun := hall 0x05810000 (by decide)
    rw [hholds] at hrun
    exact hrun
  · have hholds : (recording.context compared).flags.holds
      (.ofBits (Guest.bits 0x15810000 31 28)) = false := by decide +kernel
    have hrun := hall 0x15810000 (by decide)
    rw [hholds] at hrun
    exact hrun

end A32

end Dynarec.Lift
