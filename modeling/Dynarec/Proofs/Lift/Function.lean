import Dynarec.Lift.Block
import Dynarec.Proofs.Guest.DecodedBlock
import Dynarec.Proofs.Lift.A32
import Dynarec.Proofs.Lift.A64
import Dynarec.Proofs.Lift.Assembled

/-!
# Functions of guest blocks

The function of a block of guest code carries out the code of its instructions, one after the other,
and can be put into static single assignment form.
-/

namespace Dynarec.Lift

open Assembly
open Guest (Mode Opcode)
open IR (BlockId Draft Function OperandId Program Ty)

namespace Assembly

variable {mode : Mode} {pc : UInt64} {a : Assembly} {types : List Ty} {pending : List BlockId}
  {steps : List Step} {c : Code}

/-! ### Bodies -/

theorem steps_append {first : List Step} (h : ∀ s ∈ first, s.isFinal = false) (second : List Step) :
    a.steps (first ++ second) = (a.steps first).steps second := by
  induction first generalizing a with
  | nil => rfl
  | cons s first ih =>
    have hs := h s (.head _)
    simp only [List.cons_append, steps, hs]
    exact ih fun x hx => h x (.tail _ hx)

theorem Assembled.assembles (h : Assembled mode pending a steps types)
    (hsteps : ∀ s ∈ steps, s.isFinal = false) :
    Assembles mode pending a steps (a.steps steps) types := by
  rcases h with h | ⟨⟨s, hs, hfinal⟩, -⟩
  · exact h
  · rw [hsteps s hs] at hfinal
    cases hfinal

theorem Sound.body (h : a.Sound mode types pending) (hsteps : ProperBody mode pc types steps) :
    ∃ types', Assembled mode pending a steps types' := by
  obtain ⟨first, second, types₁, types₂, rfl, hfirst, hsecond⟩ := hsteps
  have hnot := hfirst.not_final
  have hone := (h.steps hfirst).assembles hnot
  refine ⟨types₂, ?_⟩
  unfold Assembled
  rw [steps_append hnot]
  rcases hone.sound.steps hsecond with htwo | ⟨⟨s, hs, hfinal⟩, htwo⟩
  · exact .inl (hone.trans htwo)
  · exact .inr ⟨⟨s, List.mem_append_right _ hs, hfinal⟩, hone.finish htwo⟩

/-! ### Code of an instruction -/

def Ready (mode : Mode) (a : Assembly) : Prop := Sound mode { a with temps := [] } [] []

structure AssemblesCode (mode : Mode) (a : Assembly) (c : Code) (a' : Assembly) : Prop where
  ready : a'.Ready mode
  grows : a.f.Grows [a.block] a'.f
  block : a'.block = a.block ∨ a.f.blocks.size ≤ a'.block.index
  realizes : ∀ g, a'.f.Grows [a'.block] g → RealizesCode g.program (a.rest g) c (some (a'.rest g))

structure FinishesCode (mode : Mode) (a : Assembly) (c : Code) (a' : Assembly) : Prop where
  ended : a'.Ended mode []
  grows : a.f.Grows [a.block] a'.f
  realizes : ∀ g, a'.f.Grows [] g → RealizesCode g.program (a.rest g) c none

theorem Ready.plain (h : a.Ready mode) (hguard : c.guard = none)
    (hbody : ProperBody mode pc [] c.body) :
    AssemblesCode mode a c (a.code c) ∨ FinishesCode mode a c (a.code c) := by
  obtain ⟨types, hsteps⟩ := Sound.body h hbody
  have heq : a.code c = Assembly.steps { a with temps := [] } c.body := by
    rw [code, hguard]
  rw [heq]
  rcases hsteps with hsteps | ⟨-, hsteps⟩
  · exact .inl ⟨hsteps.sound.withoutTemps, hsteps.grows, hsteps.block,
      fun g hg => .on hguard (hsteps.realizes g hg)⟩
  · exact .inr ⟨hsteps.ended, hsteps.grows, fun g hg => .ended hguard (hsteps.realizes g hg)⟩

/-- The body of conditional code ends in the block where both ways meet, or ends the instruction. -/
theorem Sound.joins {join : BlockId} (h : a.Sound mode [] [join]) (hmode : mode = .a32)
    (hsteps : ProperBody mode pc [] steps) :
    ∃ f b temps, (if (a.steps steps).terminated then a.steps steps
          else (a.steps steps).close (.branch join) []) = ⟨f, b, true, temps⟩ ∧
      Draft (registerTy mode) (mode = .a32) f [join] ∧ f.program.code join = [] ∧
      a.f.Grows [a.block, join] f ∧
      ∀ g, f.Grows [join] g →
        ∃ after, Realizes g.program a.temps (a.rest g) steps after ∧
          ∀ temps' ids', after = .on temps' ids' → ∃ i, ids' = [i] ∧
            g.program.stmt i = ⟨.branch join, none, []⟩ := by
  obtain ⟨types', hsteps⟩ := h.body hsteps
  rcases hsteps with hsteps | ⟨-, hsteps⟩
  · have hsound := hsteps.sound
    obtain ⟨ids, f, heq, hend, hids⟩ : ∃ ids f, (a.steps steps).close (.branch join) [] =
        ⟨f, (a.steps steps).block, true, (a.steps steps).temps⟩ ∧ _ :=
      hsound.close rfl (by simp) (by simp) (by simp [IR.Instruction.targets]) (.inl hmode)
    refine ⟨f, _, _, by rw [hsound.unfinished, if_neg Bool.false_ne_true, heq], hend.draft,
      hend.empty join (.head _), hsteps.grows.trans hend.grows hsteps.unfinished,
      fun g hg => ⟨_, hsteps.realizes g (hend.grows.trans hg fun _ hb _ =>
        .tail _ hb), ?_⟩⟩
    rintro temps' ids' ⟨⟩
    obtain ⟨i, hi, hstmt⟩ := hend.rest g _ hg hsound.not_mem
    cases hids g _ hg
    exact ⟨i, hi, hstmt⟩
  · obtain ⟨hdraft, hfresh, hterm⟩ := hsteps.ended
    refine ⟨(a.steps steps).f, (a.steps steps).block, (a.steps steps).temps, ?_, hdraft,
      (hfresh join (.head _)).code, hsteps.grows, fun g hg => ⟨_, hsteps.realizes g hg, ?_⟩⟩
    · rw [if_pos hterm, ← hterm]
    · rintro temps' ids' ⟨⟩

theorem Ready.guarded {taken : Value} (h : a.Ready mode) (hmode : mode = .a32)
    (hguard : c.guard = some (steps, taken)) (hsteps : Proper mode pc .access [] steps types)
    (htaken : taken.Known mode types) (hbody : ProperBody mode pc [] c.body) :
    AssemblesCode mode a c (a.code c) := by
  have hfirst := (Sound.steps h hsteps).assembles hsteps.not_final
  obtain ⟨b, hb⟩ : ∃ b, Assembly.steps { a with temps := [] } steps = b := ⟨_, rfl⟩
  rw [hb] at hfirst
  have hsound := hfirst.sound
  obtain ⟨o, f₁, heq₁, hfork, ho⟩ := hsound.branchNew htaken
  obtain ⟨f, last, temps, heq, hdraft, hempty, hgrows, hjoins⟩ :=
    (hfork.sound_first hsound).withoutTemps.joins hmode hbody
  have hcode : a.code c = ⟨f, ⟨b.f.blocks.size + 1⟩, false, temps⟩ := by
    have hbody : b.f.addBlock.1 = ⟨b.f.blocks.size⟩ := rfl
    rw [code, hguard]
    dsimp only [newBlock]
    rw [hb, hbody, fst_addBlock_addBlock, heq₁]
    exact congrArg (switchTo · ⟨b.f.blocks.size + 1⟩) heq
  rw [hcode]
  have hgrows₁ : b.f.Grows [b.block] f := hfork.grows.trans hgrows fun x hx hlt =>
    .tail _ (mem_of_lt hx hlt)
  refine ⟨Sound.switchTo hdraft (by simp) .nil, hfirst.grows.trans hgrows₁ hfirst.unfinished,
    .inr ?_, fun g hg => ?_⟩
  · exact hfirst.grows.blocks.trans (Nat.le_succ _)
  · have hgrow₁ := hgrows.trans hg fun _ hx _ => .tail _ hx
    have hgrow : b.f.Grows [b.block] g := hfork.grows.trans hgrow₁ fun x hx hlt =>
      .tail _ (mem_of_lt hx hlt)
    obtain ⟨id, hid, hstmt⟩ := hfork.rest g _ hgrow₁ hsound.not_mem_new
    obtain ⟨after, hrealizes, hafter⟩ := hjoins g hg
    have hguarded := hfirst.realizes g hgrow
    rw [hid] at hguarded
    rw [rest_eq_code (hfork.fresh _ (.head _)).code] at hrealizes
    rw [rest_eq_code hempty]
    exact .guarded hguard hguarded (ho g _ hgrow₁) hstmt hrealizes hafter

theorem Ready.code (h : a.Ready mode) (hc : c.Proper mode pc) :
    AssemblesCode mode a c (a.code c) ∨ FinishesCode mode a c (a.code c) := by
  cases hguard : c.guard with
  | none => exact h.plain hguard hc.body
  | some guard =>
    obtain ⟨steps, taken⟩ := guard
    obtain ⟨hmode, types, hsteps, htaken⟩ := hc.guard steps taken hguard
    exact .inl (h.guarded hmode hguard hsteps htaken hc.body)

/-! ### Blocks -/

theorem opcodes_of_terminated (h : a.terminated = true) (ops : List Opcode) :
    a.opcodes mode ops = a := by
  cases ops with
  | nil => rfl
  | cons op ops => simp [opcodes, h]

theorem AssemblesCode.unfinished {a' : Assembly} (h : AssemblesCode mode a c a') (b : BlockId)
    (hb : b ∈ [a'.block]) (hlt : b.index < a.f.blocks.size) : b ∈ [a.block] := by
  rw [List.mem_singleton] at hb ⊢
  subst hb
  rcases h.block with heq | hnew
  · exact heq
  · exact absurd hlt hnew.not_gt

theorem Ready.limit (h : a.Ready mode) (limit : UInt64) :
    ∃ f, a.dispatchTo limit = ⟨f, a.block, true, a.temps⟩ ∧
      Draft (registerTy mode) (mode = .a32) f [] ∧ a.f.Grows [a.block] f ∧
      ∀ g, f.Grows [] g → RealizesBlock g.program limit (a.rest g) [] := by
  obtain ⟨o, f, heq, hend, ho⟩ :
      ∃ o f, close { a with temps := [] } .dispatch [.const limit .i64] = ⟨f, _, _, _⟩ ∧ _ :=
    Sound.leave h rfl rfl trivial
  have htemps : a.dispatchTo limit = { close { a with temps := [] } .dispatch
      [.const limit .i64] with temps := a.temps } := rfl
  refine ⟨f, by rw [htemps, heq], hend.draft, hend.grows, fun g hg => ?_⟩
  obtain ⟨id, hid, hstmt⟩ := hend.rest g _ hg (Sound.not_mem h)
  have hrest : a.rest g = [id] := hid
  rw [hrest]
  exact .nil hstmt (ho g _ hg)

/-- Add instructions, and go on at `limit` if none of them ends the block. -/
theorem Ready.opcodes {ops : List Opcode} (h : a.Ready mode) (limit : UInt64)
    (hops : ∀ op ∈ ops, (Lift.code mode op).Proper mode op.address) :
    ∃ f, (if (a.opcodes mode ops).terminated then a.opcodes mode ops
        else (a.opcodes mode ops).dispatchTo limit).f = f ∧
      Draft (registerTy mode) (mode = .a32) f [] ∧ a.f.Grows [a.block] f ∧
      ∀ g, f.Grows [] g → RealizesBlock g.program limit (a.rest g) (ops.map (Lift.code mode)) := by
  have hnot : a.terminated = false := h.unfinished
  induction ops generalizing a with
  | nil =>
    obtain ⟨f, heq, hlast⟩ := h.limit limit
    refine ⟨f, ?_, hlast⟩
    rw [opcodes, hnot]
    exact congrArg Assembly.f heq
  | cons op ops ih =>
    have heq : a.opcodes mode (op :: ops) = (a.code (Lift.code mode op)).opcodes mode ops := by
      simp [opcodes, hnot]
    rw [heq]
    rcases h.code (hops op (.head _)) with hcode | hcode
    · obtain ⟨f, hlast, hdraft, hgrows, hrealizes⟩ :=
        ih hcode.ready (fun x hx => hops x (.tail _ hx)) hcode.ready.unfinished
      refine ⟨f, hlast, hdraft, hcode.grows.trans hgrows hcode.unfinished, fun g hg => ?_⟩
      exact .next (hcode.realizes g (hgrows.trans hg (by simp))) (hrealizes g hg)
    · obtain ⟨hdraft, -, hterm⟩ := hcode.ended
      rw [opcodes_of_terminated hterm, if_pos hterm]
      exact ⟨_, rfl, hdraft, hcode.grows, fun g hg => .last (hcode.realizes g hg)⟩

theorem proper_countEntry (pc : UInt64) (options : Options) (start : UInt64) :
    Proper mode pc .update [] (countEntry options start) [] := by
  unfold countEntry
  split
  · exact .mention trivial (.mention trivial (.mention trivial (.perform rfl (by simp)
      (by simp [Value.Known]) .nil)))
  · exact .nil

theorem countEntry_not_final (options : Options) (start : UInt64) :
    ∀ s ∈ countEntry options start, s.isFinal = false := by
  unfold countEntry
  split
  · simp [Step.isFinal]
  · simp

end Assembly

/-- The function counts the call and carries out the code of the instructions. -/
structure RealizesFunction (p : Program) (entry : List Step) (limit : UInt64) (codes : List Code) :
    Prop where
  body : ∃ temps id b, Realizes p [] (p.code Function.entry) entry (.on temps [id]) ∧
    p.stmt id = ⟨.branch b, none, []⟩ ∧ RealizesBlock p limit (p.code b) codes

open Assembly in
/-- The function of a block is complete, and carries out its instructions. -/
theorem draft_function {block : Guest.Block} {mode : Mode}
    (hops : ∀ op ∈ block.opcodes, (code mode op).Proper mode op.address) (options : Options) :
    Draft (registerTy mode) (mode = .a32) (function block mode options) [] ∧
      RealizesFunction (function block mode options).program (countEntry options block.start)
        block.limit (block.opcodes.map (code mode)) := by
  have hstart : (ofAddress block.start).Sound mode [] [] :=
    ⟨.ofAddress block.start, by simp, .nil, rfl⟩
  have hentry := (hstart.steps (proper_countEntry 0 options block.start)).assembles
    (countEntry_not_final options block.start)
  obtain ⟨a, ha⟩ : ∃ a, (ofAddress block.start).steps (countEntry options block.start) = a :=
    ⟨_, rfl⟩
  rw [ha] at hentry
  obtain ⟨hs, hunused⟩ := hentry.sound.newBlock
  obtain ⟨ids, f₁, heq₁, hend, hids⟩ : ∃ ids f, close { a with f := a.f.addBlock.2 }
      (.branch ⟨a.f.blocks.size⟩) [] = ⟨f, _, _, _⟩ ∧ _ :=
    hs.close rfl (by simp) (by simp) (by simp [IR.Instruction.targets])
      (.inr fun t ht => List.mem_singleton.mp ht ▸ hunused)
  have hready : Ready mode ⟨f₁, ⟨a.f.blocks.size⟩, false, a.temps⟩ :=
    .switchTo hend.draft (by simp) .nil
  obtain ⟨f, heq, hdraft, hgrows, hrealizes⟩ := hready.opcodes block.limit hops
  have hfunction : function block mode options = f := by
    have hbody : a.f.addBlock.1 = ⟨a.f.blocks.size⟩ := rfl
    rw [function, ha, body]
    dsimp only [newBlock]
    rw [hbody, heq₁]
    exact heq
  rw [hfunction]
  have hgrow₁ : f₁.Grows [⟨a.f.blocks.size⟩] f := hgrows
  have hgrow : a.f.Grows [a.block] f := by
    refine (Function.Grows.addBlock a.f [a.block]).trans (hend.grows.trans hgrow₁ ?_) ?_
    · simp
    · intro b hb hlt
      simp only [List.mem_cons, List.not_mem_nil, or_false] at hb ⊢
      rcases hb with hb | rfl
      · exact hb
      · exact absurd hlt (lt_irrefl _)
  obtain ⟨id, hid, hstmt⟩ := hend.rest f _ hgrow₁ hs.not_mem
  rw [rest_congr (congrFun (congrArg Program.code Function.program_addBlock) a.block)] at hid
  have hsteps := hentry.realizes f hgrow
  rw [hid] at hsteps
  have hblock := hrealizes f (.refl f [])
  rw [rest_eq_code (hend.empty _ List.mem_cons_self)] at hblock
  cases hids f _ hgrow₁
  exact ⟨hdraft, _, id, _, hsteps, hstmt, hblock⟩

/-! ### Decoded blocks -/

/-- Decoded instructions have proper code. -/
theorem proper_code (mode : Mode) (a : UInt64) (w : UInt32) :
    (code mode (Opcode.decode mode a w)).Proper mode a := by
  cases mode with
  | a64 => exact (A64.proper_lift (Opcode.decode .a64 a w) _).code
  | a32 => exact A32.proper_code (Opcode.decode .a32 a w) _

theorem proper_of_consecutive {mode : Mode} {a : UInt64}
    {ops : List Opcode} (h : Guest.Block.Consecutive mode a ops) :
    ∀ op ∈ ops, (code mode op).Proper mode op.address := by
  intro op hop
  obtain ⟨w, hw⟩ := h.of_mem hop
  have hproper := proper_code mode op.address w
  rwa [← hw] at hproper

end Dynarec.Lift
