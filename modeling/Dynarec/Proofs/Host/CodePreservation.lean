import Dynarec.Proofs.Host.Blocks
import Dynarec.Proofs.IR.Preservation

/-!
# Code generation preserves functions

The code of a function takes the way through the blocks that the function takes, makes the same
requests to the host in the same worlds and leaves in the same manner. Each pass through the entry
block moves the stack pointer down by a frame, and control gives up one frame when it leaves: so the
stack pointer is as it was if no block branches to the entry.
-/

open List
open Dynarec.IR.Function (blockIds entry)

namespace Dynarec.IR

inductive Progress (ω : Type) where
  /-- At the start of a block. -/
  | at_ (b : BlockId) (world : ω)
  | left (how : Leave) (world : ω)

def Progress.left? {ω : Type} : Progress ω → Option (Leave × ω)
  | at_ .. => none
  | left how world => some (how, world)

namespace Eval

variable {ω : Type}

/-- The blocks that a run from a block enters, at most `fuel` of them, and how far it comes. -/
def travel (f : Function) (native : Native ω) :
    (fuel : Nat) → BlockId → Frame → ω → List BlockId × Progress ω
  | 0, b, _, world => ([], .at_ b world)
  | fuel + 1, b, frame, world =>
    let following : BlockId := ⟨b.index + 1⟩
    if !f.hasBlock b then ([], .at_ b world)
    else match runOperations f native following (f.blockOperations b) frame world with
    | (.fall, frame, world) =>
      let rest := travel f native fuel following frame world
      (b :: rest.1, rest.2)
    | (.goto target, frame, world) =>
      let rest := travel f native fuel target frame world
      (b :: rest.1, rest.2)
    | (.leave how, _, world) => ([b], .left how world)

variable {f : Function} {native : Native ω} {b : BlockId} {frame frame' : Frame} {w w' : ω}
  {n : Nat}

theorem runFrom_eq_travel :
    runFrom f native n b frame w = (travel f native n b frame w).2.left? := by
  induction n generalizing b frame w with
  | zero => rfl
  | succ n ih =>
    rw [runFrom, travel]
    cases f.hasBlock b with
    | false => rfl
    | true =>
      rcases runOperations f native ⟨b.index + 1⟩ (f.blockOperations b) frame w with
        ⟨_ | target | how, frame', w'⟩
      · exact ih
      · exact ih
      · rfl

theorem travel_block (hb : b.index < f.blocks.size) {next : Next} {target : BlockId}
    (hrun : runOperations f native ⟨b.index + 1⟩ (f.blockOperations b) frame w = (next, frame', w'))
    (htarget : next.target? ⟨b.index + 1⟩ = some target) :
    travel f native (n + 1) b frame w =
      (b :: (travel f native n target frame' w').1, (travel f native n target frame' w').2) := by
  have hexist : f.hasBlock b = true := decide_eq_true hb
  rw [travel, hexist, hrun]
  cases next <;> cases htarget <;> rfl

theorem travel_leave (hb : b.index < f.blocks.size) {how : Leave}
    (hrun : runOperations f native ⟨b.index + 1⟩ (f.blockOperations b) frame w =
      (.leave how, frame', w')) :
    travel f native (n + 1) b frame w = ([b], .left how w') := by
  have hexist : f.hasBlock b = true := decide_eq_true hb
  rw [travel, hexist, hrun]
  rfl

/-- The operations of a block lead to its successors only. -/
def LeadsToSuccessors (f : Function) (native : Native ω) : Prop :=
  ∀ b frame w target, b.index < f.blocks.size →
    (runOperations f native ⟨b.index + 1⟩ (f.blockOperations b) frame w).1.target? ⟨b.index + 1⟩ =
      some target → target ∈ f.successors b

section

variable (hnext : LeadsToSuccessors f native)

include hnext

/-- From a block a run leaves, or it goes on to a successor. -/
theorem travel_succ (hb : b.index < f.blocks.size) :
    (∃ how w', travel f native (n + 1) b frame w = ([b], .left how w')) ∨
      ∃ c ∈ f.successors b, ∃ frame' w', travel f native (n + 1) b frame w =
        (b :: (travel f native n c frame' w').1, (travel f native n c frame' w').2) := by
  rcases hrun : runOperations f native ⟨b.index + 1⟩ (f.blockOperations b) frame w with
    ⟨next, frame', w'⟩
  cases htarget : next.target? ⟨b.index + 1⟩ with
  | none =>
    cases next with
    | leave how => exact .inl ⟨_, _, travel_leave hb hrun⟩
    | _ => cases htarget
  | some target =>
    have hmem := hnext b frame w target hb (by rw [hrun]; exact htarget)
    exact .inr ⟨target, hmem, _, _, travel_block hb hrun htarget⟩

/-- A block that no block leads to is not on the way from another block. -/
theorem not_mem_travel {d : BlockId} (h : ∀ b, d ∉ f.successors b) (hb : b ≠ d) :
    d ∉ (travel f native n b frame w).1 := by
  induction n generalizing b frame w with
  | zero => exact not_mem_nil
  | succ n ih =>
    by_cases hexist : b.index < f.blocks.size
    · obtain ⟨how, w', heq⟩ | ⟨c, hc, frame', w', heq⟩ := travel_succ hnext hexist
      · rw [heq]
        simpa using hb.symm
      · rw [heq]
        simpa using ⟨hb.symm, ih fun heq => h b (heq ▸ hc)⟩
    · have hno : f.hasBlock b = false := decide_eq_false hexist
      rw [travel, hno]
      exact not_mem_nil

/-- The way from a block that no block leads to does not come back to it. -/
theorem travel_eq_cons {d : BlockId} (h : ∀ b, d ∉ f.successors b) (hd : d.index < f.blocks.size) :
    ∃ rest, (travel f native (n + 1) d frame w).1 = d :: rest ∧ d ∉ rest := by
  obtain ⟨how, w', heq⟩ | ⟨c, hc, frame', w', heq⟩ := travel_succ hnext hd
  · exact ⟨[], by rw [heq], not_mem_nil⟩
  · exact ⟨_, congrArg Prod.fst heq, not_mem_travel hnext h fun heq => h d (heq ▸ hc)⟩

/-- A run that has not left has gone through as many blocks as it may. -/
theorem length_travel (hexist : ∀ b c, c ∈ f.successors b → c.index < f.blocks.size)
    (hb : b.index < f.blocks.size) (hstay : (travel f native n b frame w).2.left? = none) :
    (travel f native n b frame w).1.length = n := by
  induction n generalizing b frame w with
  | zero => rfl
  | succ n ih =>
    obtain ⟨how, w', heq⟩ | ⟨c, hc, frame', w', heq⟩ := travel_succ hnext hb
    · rw [heq] at hstay
      cases hstay
    · rw [heq] at hstay ⊢
      rw [length_cons, ih (hexist b c hc) hstay]

end

end Eval

def Function.travel {ω : Type} (f : Function) (native : Native ω) (fuel : Nat) (world : ω) :
    List BlockId × Progress ω :=
  Eval.travel f native fuel entry (Array.replicate f.localCount 0) world

end Dynarec.IR

namespace Dynarec.Host

open IR (BlockId Function Instruction Progress Ty)

def Assembler.blockAt? (a : Assembler) (f : Function) (i : Nat) : Option BlockId :=
  f.blockIds.find? fun b => a.start? b == some i

def Assembler.entered (a : Assembler) (f : Function) (positions : List Nat) : List BlockId :=
  positions.filterMap (a.blockAt? f)

namespace Codegen

variable {ω : Type} {host : Surroundings ω} {native : IR.Native ω} {code : Assembler} {env : Env}
  {c c' : Cpu} {w w' : ω} {frame : IR.Frame} {b : BlockId} {i j k : Nat}

/-! ### The blocks that code enters -/

namespace Laid

variable (h : Laid host native code env 0 0 env.func.blockIds)

include h

theorem blockAt?_eq_some (hb : b.index < env.func.blocks.size) (hi : code.start? b = some i) :
    code.blockAt? env.func i = some b := by
  unfold Assembler.blockAt?
  cases hfind : env.func.blockIds.find? fun d => code.start? d == some i with
  | none =>
    have hnone := find?_eq_none.mp hfind b (Function.mem_blockIds.mpr hb)
    simp [hi] at hnone
  | some d =>
    have hd : d.index < env.func.blocks.size :=
      Function.mem_blockIds.mp (mem_of_find?_eq_some hfind)
    have hfound := find?_some hfind
    have hdi : code.start? d = some i := beq_iff_eq.mp hfound
    rcases Nat.lt_trichotomy b.index d.index with hlt | heq | hlt
    · exact absurd (h.start_lt hlt hd hi hdi) (Nat.lt_irrefl i)
    · exact congrArg (fun n => some (BlockId.mk n)) heq.symm
    · exact absurd (h.start_lt hlt hb hdi hi) (Nat.lt_irrefl i)

/-- A run through the code of a block enters that block only. -/
theorem entered_eq_singleton (hb : b.index < env.func.blocks.size) (hi : code.start? b = some i)
    {stop : Nat} (hstop : ∀ d n, b.index < d.index → d.index < env.func.blocks.size →
      code.start? d = some n → stop ≤ n) {passed : List Nat}
    (hmem : i ∈ passed) (hbounds : ∀ n ∈ passed, i ≤ n ∧ n < stop)
    (hsorted : passed.Pairwise (· < ·)) : code.entered env.func passed = [b] := by
  cases passed with
  | nil => cases hmem
  | cons first rest =>
    obtain ⟨hfirst, hrest⟩ := pairwise_cons.mp hsorted
    have heq : first = i := by
      rcases mem_cons.mp hmem with heq | hin
      · exact heq.symm
      · exact absurd (hfirst i hin) (hbounds first (.head _)).1.not_gt
    subst heq
    have hnone : ∀ n ∈ rest, code.blockAt? env.func n = none := by
      intro n hn
      refine find?_eq_none.mpr fun d hd hstart => ?_
      have hd : d.index < env.func.blocks.size := Function.mem_blockIds.mp hd
      have hdn : code.start? d = some n := beq_iff_eq.mp hstart
      have hlt := hfirst n hn
      -- earlier blocks start before this one, later blocks after the part that was passed
      rcases Nat.lt_trichotomy b.index d.index with hbd | heq | hdb
      · exact absurd (hbounds n (.tail _ hn)).2 (hstop d n hbd hd hdn).not_gt
      · have hbd : b = d := congrArg BlockId.mk heq
        rw [← hbd, hi] at hdn
        exact absurd (Option.some.inj hdn) hlt.ne
      · exact absurd (h.start_lt hdb hb hdn hi) hlt.le.not_gt
    rw [Assembler.entered, filterMap_cons_some (h.blockAt?_eq_some hb hi),
      filterMap_eq_nil_iff.mpr hnone]

end Laid

/-! ### Code that follows a function -/

/-- The room that the frames take which a path through the blocks makes. -/
def Env.framesOf (env : Env) (path : List BlockId) : UInt64 :=
  UInt64.ofNat (path.count entry) * env.frameBytes

theorem Env.framesOf_nil (env : Env) : env.framesOf [] = 0 := UInt64.zero_mul

theorem Env.framesOf_cons (env : Env) (b : BlockId) (path : List BlockId) :
    env.framesOf (b :: path) = env.entryBytes b + env.framesOf path := by
  unfold framesOf entryBytes
  by_cases h : b = entry
  · rw [h, count_cons_self, UInt64.ofNat_add]
    grind
  · rw [count_cons_of_ne h, if_neg h, UInt64.zero_add]

/-- A run of `code` from position `i` enters the blocks of `path`. Then it stands at the same block
as the function, in the same world, or it has left in the same manner. -/
def Follows (host : Surroundings ω) (code : Assembler) (env : Env) (i : Nat) (c : Cpu) (w : ω)
    (path : List BlockId) : Progress ω → Prop
  | .at_ b w' => ∃ m passed j c', code.entered env.func passed = path ∧ code.start? b = some j ∧
      (∀ fuel, Exec.run host code (fuel + m) i c w = Exec.run host code fuel j c' w' ∧
        Exec.trail host code (fuel + m) i c w = passed ++ Exec.trail host code fuel j c' w') ∧
      c'.get Gp.sp + env.framesOf path = c.get Gp.sp
  | .left how w₁ => ∃ m passed way c' w', code.entered env.func passed = path ∧
      (∀ fuel, Exec.run host code (fuel + m) i c w = some (way, c', w') ∧
        Exec.trail host code (fuel + m) i c w = passed) ∧
      Left host w₁ how way (c'.get Gp.ax) w' ∧
      c'.get Gp.sp + env.framesOf path = c.get Gp.sp + env.frameBytes

/-- The code of a block before code that follows the rest of a run. -/
theorem Follows.cons {path : List BlockId} {stop : Progress ω} {passed : List Nat}
    (h : Follows host code env j c' w' path stop)
    (hrun : ∀ fuel, Exec.run host code (fuel + k) i c w = Exec.run host code fuel j c' w' ∧
      Exec.trail host code (fuel + k) i c w = passed ++ Exec.trail host code fuel j c' w')
    (hentered : code.entered env.func passed = [b])
    (hsp : c'.get Gp.sp = c.get Gp.sp - env.entryBytes b) :
    Follows host code env i c w (b :: path) stop := by
  have happend : ∀ more,
      code.entered env.func (passed ++ more) = b :: code.entered env.func more := by
    intro more
    rw [Assembler.entered, filterMap_append]
    exact congrArg (· ++ _) hentered
  cases stop with
  | at_ d v =>
    obtain ⟨m, more, n, c'', hmore, hd, hrest, hrestSp⟩ := h
    refine ⟨m + k, passed ++ more, n, c'', by rw [happend, hmore], hd, fun fuel => ?_, ?_⟩
    · rw [← Nat.add_assoc, (hrun _).1, (hrun _).2, (hrest _).1, (hrest _).2, append_assoc]
      exact ⟨rfl, rfl⟩
    · rw [env.framesOf_cons]
      grind
  | left how v =>
    obtain ⟨m, more, way, c'', w'', hmore, hrest, hleft, hrestSp⟩ := h
    refine ⟨m + k, passed ++ more, way, c'', w'', by rw [happend, hmore], fun fuel => ?_, hleft, ?_⟩
    · rw [← Nat.add_assoc, (hrun _).1, (hrun _).2, (hrest _).1, (hrest _).2]
      exact ⟨rfl, rfl⟩
    · rw [env.framesOf_cons]
      grind

/-- Code that is laid out for the blocks of a function follows the function from any block. -/
theorem Laid.follows (h : Laid host native code env 0 0 env.func.blockIds)
    (hf : Lowerable host env.func) (henv : env.liveness = .compute env.func)
    (hb : b.index < env.func.blocks.size) (hi : code.start? b = some i)
    (hframe : frame.size = env.func.localCount) (henter : Entered env b frame c) (n : Nat) :
    Follows host code env i c w (IR.Eval.travel env.func native n b frame w).1
      (IR.Eval.travel env.func native n b frame w).2 := by
  induction n generalizing b i frame c w with
  | zero =>
    refine ⟨0, [], i, c, rfl, hi, fun _ => ⟨rfl, rfl⟩, ?_⟩
    rw [IR.Eval.travel, env.framesOf_nil, UInt64.add_zero]
  | succ n ih =>
    obtain ⟨next, frame', w', q, hrun, hframe', hreach, hlt, hstop, harrives⟩ :=
      h.leads_block hf henv hb hi hframe henter
    obtain ⟨k, passed, hpassed, hbounds, hsorted, hmem⟩ := hreach.passed
    have hentered := h.entered_eq_singleton hb hi hstop (hmem i c w rfl hlt) hbounds hsorted
    cases harrives with
    | @block _ _ target j c' htarget hexist hstart hsp henter' hresume htrail =>
      rw [IR.Eval.travel_block hb hrun htarget]
      refine (ih hexist hstart hframe' henter').cons (k := k) (fun fuel => ?_) hentered hsp
      rw [← hresume, ← htrail]
      exact hpassed fuel
    | @gone how o way c' w'' hsp hleft =>
      rw [IR.Eval.travel_leave hb hrun]
      refine ⟨k, passed, way, c', w'', hentered, fun fuel => ?_, hleft, ?_⟩
      · refine ⟨(hpassed fuel).1, ?_⟩
        exact (hpassed fuel).2.trans (append_nil passed)
      · rw [env.framesOf_cons, env.framesOf_nil]
        grind

/-! ### Generated code -/

def Env.ofFunction (f : Function) : Env := ⟨f, ⟨f.localCount⟩, .compute f⟩

variable {f : Function} {table : Code.AddressTable} {session : Session} {bytes : List UInt8}

/-- The code that comes out is laid out for the blocks of the function. -/
theorem laid_generate (hserve : Serves host native) (hf : Lowerable host f)
    (hcode : (generate f table session).code = .ok bytes) :
    Laid host native (generate f table session).emitted (.ofFunction f) 0 0 f.blockIds := by
  let start : State :=
    { asm := .empty
      regs := .ofSet allocatableSet
      dirty := .ofCapacity f.localCount
      block := entry
      stale := none
      table
      session }
  have hresult : (generate f table session).code = (lower (.ofFunction f) start).1 := rfl
  have hemitted : (generate f table session).emitted = (lower (.ofFunction f) start).2.asm := rfl
  rw [hcode] at hresult
  rcases hrun : (lower (.ofFunction f) start) with ⟨result, u⟩
  rw [hrun] at hresult hemitted
  cases hresult
  obtain ⟨_, s, hread, hlower⟩ := ok_of_bind hrun
  cases hread
  obtain ⟨_, t, hblocks, hfinish⟩ := ok_of_bind hlower
  have hwithin := Grows.within (.ofFunction f) (do
    let code ← asm Asm.finish
    modify fun s => { s with session := s.session.hostCode code.length }
    return code) t
  rw [hfinish] at hwithin
  rw [hemitted]
  refine laid_of_run (n := 0) hf rfl hserve (fun k b hb => ?_) ?_ ?_ rfl hblocks hwithin
  · simp only [blockIds] at hb
    grind
  · simp [blockIds]
  · intro block l hl
    cases hl

section

variable (hserve : Serves host native) (hf : Lowerable host f)
  (hcode : (generate f table session).code = .ok bytes)

include hserve hf hcode

theorem follows_generate (c : Cpu) (w : ω) (n : Nat) :
    Follows host (generate f table session).emitted (.ofFunction f) 0 c w (f.travel native n w).1
      (f.travel native n w).2 := by
  have hlaid := laid_generate hserve hf hcode
  have hstart : (generate f table session).emitted.start? entry = some 0 := by
    have hfirst := getElem?_blockIds hf.entry
    generalize f.blockIds = bs at hlaid hfirst
    cases hlaid with
    | nil => cases hfirst
    | cons hstart =>
      cases hfirst
      exact hstart
  refine hlaid.follows hf rfl hf.entry hstart Array.size_replicate (fun l hl => ?_) n
  have hdead : ((Env.ofFunction f).liveness.before entry).contains l = false :=
    not_live_entry hf rfl l
  cases hdead.symm.trans hl

/-- Code that leaves has followed the function out of it. -/
theorem left_of_run {m : Nat} {way : Departure}
    (h : Exec.run host (generate f table session).emitted m 0 c w = some (way, c', w')) :
    ∃ n how w₁, f.run native n w = some (how, w₁) ∧ Left host w₁ how way (c'.get Gp.ax) w' ∧
      ((∀ b, entry ∉ f.successors b) → c'.get Gp.sp = c.get Gp.sp) := by
  have hnext : IR.Eval.LeadsToSuccessors f native := fun _ _ _ _ hb hrun =>
    hf.mem_successors_of_runOperations hb hrun
  have hfollows := follows_generate hserve hf hcode c w (m + 1)
  have hrun : f.run native (m + 1) w = (f.travel native (m + 1) w).2.left? :=
    IR.Eval.runFrom_eq_travel
  have hlength : (f.travel native (m + 1) w).2.left? = none →
      (f.travel native (m + 1) w).1.length = m + 1 := IR.Eval.length_travel hnext hf.exist hf.entry
  rcases htravel : f.travel native (m + 1) w with ⟨path, stop⟩
  rw [htravel] at hfollows hrun hlength
  dsimp only at hfollows hrun hlength
  cases stop with
  | at_ b v =>
    -- the code is still at work after as many instructions as there are blocks on the way
    obtain ⟨k, passed, j, d, hpath, -, hresume, -⟩ := hfollows
    have htrail := congrArg length (hresume 0).2
    have hshort : (Exec.trail host (generate f table session).emitted (0 + k) 0 c w).length ≤
        0 + k := Exec.length_trail_le
    have hlong : path.length ≤ passed.length := by
      rw [← hpath]
      exact length_filterMap_le _ _
    have hle : m ≤ 0 + k := by
      rw [htrail, length_append] at hshort
      have hmany := hlength rfl
      omega
    have hstill := (hresume 0).1
    rw [Exec.run_mono h hle] at hstill
    cases hstill
  | left how w₁ =>
    obtain ⟨k, passed, way', d, w'', hpath, hresume, hleft, hsp⟩ := hfollows
    have hsame := (hresume m).1
    rw [Exec.run_mono h (Nat.le_add_right m k)] at hsame
    cases hsame
    refine ⟨m + 1, how, w₁, hrun, hleft, fun hentry => ?_⟩
    have hcons : ∃ rest, (f.travel native (m + 1) w).1 = entry :: rest ∧
        entry ∉ rest := IR.Eval.travel_eq_cons hnext hentry hf.entry
    obtain ⟨rest, hpath', hrest⟩ := hcons
    rw [htravel] at hpath'
    dsimp only at hpath'
    rw [hpath', Env.framesOf_cons, Env.framesOf, count_eq_zero_of_not_mem hrest,
      Env.entryBytes] at hsp
    grind

end

/-- Generated code preserves the function, whatever is in the registers, on the stack and in the
world: as long as the function runs, the code enters the same blocks, with the same requests to the
host and the same stores in the context, and it leaves if and in the manner that the function
leaves. The stack pointer is then back where it was, unless control has come back to the entry
block, which makes a frame each time. -/
theorem generate_preserves_function (hserve : Serves host native) (hf : Lowerable host f)
    (hcode : (generate f table session).code = .ok bytes) (c : Cpu) (w : ω) :
    (∀ n, f.run native n w = (f.travel native n w).2.left? ∧
      Follows host (generate f table session).emitted (.ofFunction f) 0 c w (f.travel native n w).1
        (f.travel native n w).2) ∧
    ∀ m way c' w', Exec.run host (generate f table session).emitted m 0 c w = some (way, c', w') →
      ∃ n how w₁, f.run native n w = some (how, w₁) ∧ Left host w₁ how way (c'.get Gp.ax) w' ∧
        ((∀ b, entry ∉ f.successors b) → c'.get Gp.sp = c.get Gp.sp) :=
  ⟨fun n => ⟨IR.Eval.runFrom_eq_travel, follows_generate hserve hf hcode c w n⟩,
    fun _ _ _ _ h => left_of_run hserve hf hcode h⟩

theorem computes_copy (sourceTy ty : Ty) : Computes host .copy sourceTy ty := by
  rintro code env s c w rd a b d x y z _ - ⟨⟩ ha - - -
  refine (passes_movValue (Reg.gp?_gp rd) ha).mono ?_
  rintro _ t c' w' ⟨rfl, hset⟩
  exact ⟨rfl, hset.keeps, hset.value, fun q hq _ _ _ => hset.other q hq, hset.stack⟩

/-- Which instructions are computed does not depend on types and operands. -/
theorem pureCode_eq_none {inst : Instruction}
    (h : (pureCode inst .i64 .i64 (.gp 0) (.imm 0) (.imm 0) (.imm 0)).isNone = true)
    (sourceTy ty : Ty) (rd : Reg) (x y z : Value) : pureCode inst sourceTy ty rd x y z = none := by
  cases inst <;> first | rfl | cases h

end Codegen

def Surroundings.native {ω : Type} (host : Surroundings ω) : IR.Native ω where
  context := host.context
  mapContext g w := host.mapContext (fun _ => g (host.context w)) w
  load size a w := host.call (.readMemory size) a 0 w
  store size a b w := (host.call (.writeMemory size) a b w).2
  readCounter w := host.call .readCounter 0 0 w
  readFrequency w := host.call .readFrequency 0 0 w
  supervisorCall a b w := (host.call .supervisorCall a b.toUInt64 w).2
  breakpoint a b w := (host.call .breakpoint a b.toUInt64 w).2
  undefined a b w := (host.call .undefinedInstruction a b.toUInt64 w).2
  invalidateLine a w := (host.call .invalidateCacheLine a 0 w).2
  countCall counter guest threshold w :=
    let (old, w) := host.addToCounter counter 1 w
    if old = (threshold.toNat - 1).toUInt64 then (host.call .enqueueRejit guest 0 w).2 else w

theorem serves_idle : Serves .idle Surroundings.idle.native := by
  constructor <;> intros <;> rfl

section

variable {ω : Type} {host : Surroundings ω} {f : Function} {table : Code.AddressTable}
  {session : Session}

/-- Only blocks have successors. -/
theorem mem_blockIds_of_successors (hwf : f.WellFormed) {b c : BlockId}
    (hc : c ∈ f.successors b) : b ∈ f.blockIds := by
  rw [hwf.successors_eq] at hc
  exact Function.mem_blockIds.mpr (hwf.lt_of_mem_successors hc)

/-- A function with no local live at its entry that computes nothing but copies. -/
theorem lowerable_of_copies (hwf : f.WellFormed) (hverify : f.verify = .ok ())
    (hentry : 0 < f.blocks.size) (hsmall : f.localCount ≤ 2 ^ 28)
    (hexist : ∀ b ∈ f.blockIds, ∀ c ∈ f.successors b, c.index < f.blocks.size)
    (hlive : (IR.Liveness.compute f).before entry = .ofCapacity f.localCount)
    (hops : ∀ e ∈ f.places, ((f.operation e.2).inst = .copy ∨
        (Codegen.pureCode (f.operation e.2).inst .i64 .i64 (.gp 0) (.imm 0) (.imm 0)
          (.imm 0)).isNone = true) ∧
      ((f.operation e.2).inst.hasResult = false → (f.operation e.2).dest = none)) :
    Lowerable host f := by
  have hexist' : ∀ b c, c ∈ f.successors b → c.index < f.blocks.size := fun b c hc =>
    hexist b (mem_blockIds_of_successors hwf hc) c hc
  refine ⟨hwf, hverify, hexist', hentry, fun l hl => ?_, hsmall, fun b id hid => ?_⟩
  · have hin : entry.index < f.blocks.size := hentry
    have hbefore := (IR.Liveness.contains_before hwf.localsInRange hin hexist').mpr hl
    rw [hlive, IR.LocalSet.contains_ofCapacity] at hbefore
    cases hbefore
  · obtain ⟨hinst, hdest⟩ := hops (b, id) (hwf.mem_places hid)
    refine ⟨?_, hdest⟩
    rcases hinst with hcopy | hother
    · exact hcopy ▸ Codegen.computes_copy _ _
    · intro code env s c w rd a b d x y z body _ hbody
      rw [Codegen.pureCode_eq_none hother] at hbody
      cases hbody

theorem exists_code (h : (generate f table session).code.toOption.isSome = true) :
    ∃ bytes, (generate f table session).code = .ok bytes := by
  cases hcode : (generate f table session).code with
  | error e =>
    rw [hcode] at h
    cases h
  | ok bytes => exact ⟨bytes, rfl⟩

end

/-- A function that asks the host for something while it holds values of both its locals. -/
def heldOverCall : Function :=
  (Function.frame [] [(0x1000, .i64), (1, .i64)] [.i64, .i64] 2).pushAll [
    (⟨0⟩, ⟨.loadContext (.register (.gpr 0)), some ⟨2⟩, []⟩),
    (⟨0⟩, ⟨.copy, some ⟨3⟩, [⟨2⟩]⟩),
    (⟨0⟩, ⟨.supervisorCall, none, [⟨0⟩, ⟨1⟩]⟩),
    (⟨0⟩, ⟨.branchIf ⟨1⟩ ⟨2⟩, none, [⟨3⟩]⟩),
    (⟨1⟩, ⟨.storeContext .tpidrEl0, none, [⟨2⟩]⟩),
    (⟨1⟩, ⟨.branch ⟨2⟩, none, []⟩), (⟨2⟩, ⟨.exit, none, [⟨3⟩]⟩)]

theorem wf_heldOverCall : heldOverCall.WellFormed :=
  (Function.wf_frame _ _ _ _).pushAll (by decide)

theorem lowerable_heldOverCall : Lowerable .idle heldOverCall := by
  refine lowerable_of_copies wf_heldOverCall ?_ ?_ ?_ ?_ ?_ ?_
  all_goals decide +kernel

theorem generate_preserves_heldOverCall : ∃ bytes,
    Lowerable .idle heldOverCall ∧ Serves .idle Surroundings.idle.native ∧
      (generate heldOverCall (.ofMode .a64 0xf111) default).code = .ok bytes ∧
      ∀ c w m way c' w',
        Exec.run .idle (generate heldOverCall (.ofMode .a64 0xf111) default).emitted m 0 c w =
          some (way, c', w') →
        ∃ n how w₁, heldOverCall.run Surroundings.idle.native n w = some (how, w₁) ∧
          Left .idle w₁ how way (c'.get Gp.ax) w' ∧ c'.get Gp.sp = c.get Gp.sp := by
  have hf := lowerable_heldOverCall
  obtain ⟨bytes, hcode⟩ : ∃ bytes, (generate heldOverCall (.ofMode .a64 0xf111) default).code =
    .ok bytes := exists_code (by decide +kernel)
  refine ⟨bytes, hf, serves_idle, hcode, fun c w m way c' w' hrun => ?_⟩
  obtain ⟨n, how, w₁, hleave, hleft, hsp⟩ :=
    (Codegen.generate_preserves_function serves_idle hf hcode c w).2 m way c' w' hrun
  have hentry : ∀ b ∈ heldOverCall.blockIds, entry ∉ heldOverCall.successors b := by decide
  refine ⟨n, how, w₁, hleave, hleft, hsp fun b hb => ?_⟩
  exact hentry b (mem_blockIds_of_successors wf_heldOverCall hb) hb

/-- A function that branches back to its entry block if a field was not zero, and clears the
field. -/
def backToEntry : Function :=
  (Function.frame [] [(0, .i64)] [.i64] 1).pushAll [
    (⟨0⟩, ⟨.loadContext .tpidrEl0, some ⟨1⟩, []⟩), (⟨0⟩, ⟨.storeContext .tpidrEl0, none, [⟨0⟩]⟩),
    (⟨0⟩, ⟨.branchIf ⟨0⟩ ⟨1⟩, none, [⟨1⟩]⟩), (⟨1⟩, ⟨.exit, none, [⟨0⟩]⟩)]

/-- A frame is made each time control comes to the entry block, and one is given up in the end. Here
control comes back once, and the stack pointer ends one frame below where it was. -/
theorem stack_pointer_lost : ∃ bytes,
    Lowerable .idle backToEntry ∧ Serves .idle Surroundings.idle.native ∧
      (generate backToEntry (.ofMode .a64 0xf111) default).code = .ok bytes ∧
      (Exec.run .idle (generate backToEntry (.ofMode .a64 0xf111) default).emitted 20 0 .initial
        { Context.zero with tpidrEl0 := 1 }).map (fun left => left.2.1.get Gp.sp + 24) =
          some (Cpu.initial.get Gp.sp) := by
  have hf : Lowerable .idle backToEntry := by
    refine lowerable_of_copies ((Function.wf_frame _ _ _ _).pushAll ?_) ?_ ?_ ?_ ?_ ?_ ?_
    all_goals decide +kernel
  obtain ⟨bytes, hcode⟩ : ∃ bytes, (generate backToEntry (.ofMode .a64 0xf111) default).code =
    .ok bytes := exists_code (by decide +kernel)
  exact ⟨bytes, hf, serves_idle, hcode, by decide +kernel⟩

end Dynarec.Host
