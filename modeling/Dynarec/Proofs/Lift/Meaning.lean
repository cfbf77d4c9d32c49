import Dynarec.Proofs.Lift.Function

/-!
# Meaning of code

What the steps of an instruction do to the world, without the functions that hold them. A program
whose operations carry out steps leaves in the way the steps say.
-/

namespace Dynarec

namespace IR

variable {ω : Type}

/-- The host answers in the same way wherever it is asked. -/
def Host.SiteBlind (host : Host ω) : Prop :=
  ∀ site site' request w, host.answer site request w = host.answer site' request w

theorem Host.SiteBlind.perform {host : Host ω} (h : host.SiteBlind) (site site' : Site)
    (inst : Instruction) (ty sourceTy : Ty) (a b c : UInt64) (w : ω) :
    host.perform site inst ty sourceTy a b c w = host.perform site' inst ty sourceTy a b c w := by
  simp only [Host.perform, h site site']

namespace Program

variable (p : Program) (host : Host ω)

/-- From the operations that are left of a block, the program leaves in this way. -/
inductive Leaves : List OpId → State ω → Leave → ω → Prop
  | step {id ids σ how w} (hterm : (p.stmt id).inst.isTerminator = false)
      (hrest : Leaves ids (p.execute host ⟨0, id⟩ σ) how w) : Leaves (id :: ids) σ how w
  | goto {id ids b σ how w} (hflow : p.flow? host σ id = some (.goto b))
      (hrest : Leaves (p.code b) σ how w) : Leaves (id :: ids) σ how w
  | leave {id ids σ how} (hflow : p.flow? host σ id = some (.leave how)) :
      Leaves (id :: ids) σ how σ.world

variable {p host}

/-- A run that has come to these operations leaves. -/
theorem Leaves.run (hb : host.SiteBlind) (hphi : ∀ b, ∀ id ∈ p.code b, (p.stmt id).inst ≠ .phi)
    {ids : List OpId} {σ : State ω} {how : Leave} {w : ω} (h : p.Leaves host ids σ how w) {w₀ : ω}
    {n : Nat} {pred : Option BlockId} {b : BlockId} {τ : State ω}
    (hrun : p.run host w₀ n = .running pred b τ)
    (hcode : p.runCode host n (p.code b) τ = p.runCode host n ids σ) :
    ∃ m, p.run host w₀ m = .left how w := by
  induction h generalizing n pred b τ with
  | @step id ids σ how w hterm _ ih =>
    refine ih hrun ?_
    rw [hcode, runCode, flow?_eq_none p host σ hterm]
    simp only [execute, hb.perform ⟨n, id⟩ ⟨0, id⟩]
  | @goto id ids c σ how w hflow _ ih =>
    have hgone : p.run host w₀ (n + 1) = .running (some b) c σ := by
      rw [Program.run, hrun, advance, enter_of_not_phi (hphi b), hcode, runCode, hflow]
    exact ih hgone rfl
  | @leave id ids σ how hflow =>
    refine ⟨n + 1, ?_⟩
    rw [Program.run, hrun, advance, enter_of_not_phi (hphi b), hcode, runCode, hflow]

end Program

end IR

namespace Lift

open IR (Host Instruction Leave OpId OperandId Program State Ty)

variable {ω : Type} (host : Host ω)

/-! ### Evaluation -/

def Value.eval (c : Context) (temps : List UInt64) : Value → UInt64
  | const value ty => value &&& ty.mask
  | reg r ty => c.get (.register r) &&& ty.mask
  | temp i _ => temps.getD i 0

def argument (c : Context) (temps : List UInt64) (sources : List Value) (i : Nat) : UInt64 :=
  match sources[i]? with
  | some v => v.eval c temps
  | none => 0

/-- How far steps got: to their end, with their results, or out of the block. -/
inductive Progress (ω : Type) where
  | on (temps : List UInt64) (world : ω)
  | left (how : Leave) (world : ω)

def act (inst : Instruction) (ty : Ty) (sources : List Value) (temps : List UInt64) (w : ω) :
    Option UInt64 × ω :=
  let value := argument (host.context w) temps sources
  host.perform ⟨0, ⟨0⟩⟩ inst ty (sourceTy sources) (value 0) (value 1) (value 2) w

def Step.eval (temps : List UInt64) (w : ω) : Step → Progress ω
  | mention _ => .on temps w
  | compute inst ty sources =>
    let (value, w) := act host inst ty sources temps w
    .on (temps ++ [value.getD 0]) w
  | perform inst sources => .on temps (act host inst .i64 sources temps w).2
  | assign r _ v => .on temps (host.put (.register r) (v.eval (host.context w) temps) w)
  | haltCheck resume =>
    if (host.context w).get .running &&& Ty.i32.mask = 0 then .left (.exit resume) w
    else .on temps w
  | dispatch v => .left (.dispatch (v.eval (host.context w) temps)) w
  | branchOn v target next =>
    let taken := v.eval (host.context w) temps &&& v.ty.mask
    .left (.dispatch (if taken ≠ 0 then target else next)) w

def evalSteps : List Step → List UInt64 → ω → Progress ω
  | [], temps, w => .on temps w
  | s :: rest, temps, w =>
    match s.eval host temps w with
    | .on temps w => evalSteps rest temps w
    | .left how w => .left how w

def Code.eval (c : Code) (w : ω) : Progress ω :=
  match c.guard with
  | none => evalSteps host c.body [] w
  | some (steps, taken) =>
    match evalSteps host steps [] w with
    | .left how w => .left how w
    | .on temps w =>
      if taken.eval (host.context w) temps &&& taken.ty.mask ≠ 0 then evalSteps host c.body [] w
      else .on temps w

/-- The code of instructions up to one that leaves; after the last one control goes on at
`limit`. -/
def evalCodes (limit : UInt64) : List Code → ω → Leave × ω
  | [], w => (.dispatch limit, w)
  | c :: rest, w =>
    match c.eval host w with
    | .on _ w => evalCodes limit rest w
    | .left how w => (how, w)

/-! ### Programs -/

variable {host} {p : Program} {temps : List OperandId} {vals : List UInt64} {σ : State ω}
  {d o : OperandId} {v : Value} {id : OpId} {ids : List OpId} {after : After}
  {next : Option (List OpId)}

def Holds (σ : State ω) (temps : List OperandId) (vals : List UInt64) : Prop :=
  temps.map σ.locals = vals

theorem Holds.set (h : Holds σ temps vals) (hd : d ∉ temps) (v : UInt64) :
    Holds (σ.set d v) temps vals := by
  rw [← show _ = vals from h]
  refine List.map_congr_left fun o ho => σ.locals_set_of_ne ?_ v
  rintro rfl
  exact hd ho

theorem Holds.concat (h : Holds σ temps vals) (hd : d ∉ temps) (v : UInt64) :
    Holds (σ.set d v) (temps ++ [d]) (vals ++ [v]) := by
  rw [Holds, List.map_append, show _ = vals from h.set hd v, List.map_singleton, σ.locals_set_self]

theorem Holds.world (h : Holds σ temps vals) (w : ω) : Holds { σ with world := w } temps vals := h

theorem Denotes.read (h : Denotes p temps v o) (hσ : Holds σ temps vals) :
    p.read host σ o = v.eval (host.context σ.world) vals := by
  cases v with
  | const value ty =>
    unfold Program.read
    rw [h.1]
    rfl
  | reg r ty =>
    unfold Program.read
    rw [h.1, h.2]
    rfl
  | temp i ty =>
    obtain ⟨hi, ⟨k, hk⟩, -⟩ := h
    unfold Program.read
    rw [hk, ← show _ = vals from hσ, Value.eval, List.getD_eq_getElem?_getD, List.getElem?_map, hi]
    rfl

section Sources

variable {sources : List Value} {os : List OperandId}
  (hos : List.Forall₂ (Denotes p temps) sources os) (hσ : Holds σ temps vals)

include hos

theorem sourceTy_eq (inst : Instruction) (dest : Option OperandId) :
    p.sourceTy ⟨inst, dest, os⟩ = sourceTy sources := by
  cases hos with
  | nil => rfl
  | cons ho _ => exact ho.ty_eq

include hσ

theorem argument_eq (inst : Instruction) (dest : Option OperandId) (i : Nat) :
    p.argument host σ ⟨inst, dest, os⟩ i = argument (host.context σ.world) vals sources i := by
  induction hos generalizing i with
  | nil => rfl
  | cons ho _ ih =>
    cases i with
    | zero => exact ho.read hσ
    | succ i => exact ih i

/-- An operation that carries out a step does what the step does. -/
theorem perform_eq (hb : host.SiteBlind) (id : OpId) (inst : Instruction) (dest : Option OperandId)
    (ty : Ty) :
    host.perform ⟨0, id⟩ inst ty (p.sourceTy ⟨inst, dest, os⟩)
        (p.argument host σ ⟨inst, dest, os⟩ 0) (p.argument host σ ⟨inst, dest, os⟩ 1)
        (p.argument host σ ⟨inst, dest, os⟩ 2) σ.world =
      act host inst ty sources vals σ.world := by
  rw [sourceTy_eq hos, argument_eq hos hσ, argument_eq hos hσ, argument_eq hos hσ,
    hb.perform ⟨0, id⟩ ⟨0, ⟨0⟩⟩]
  rfl

theorem execute_compute (hb : host.SiteBlind) {inst : Instruction} {k : Nat}
    (hinst : inst.hasValue = true) (hstmt : p.stmt id = ⟨inst, some d, os⟩)
    (hkind : p.kind d = .local_ k) :
    p.execute host ⟨0, id⟩ σ =
      State.set { σ with world := (act host inst (p.ty d) sources vals σ.world).2 } d
        ((act host inst (p.ty d) sources vals σ.world).1.getD 0) := by
  have hphi : inst ≠ .phi := by
    rintro rfl
    cases hinst
  obtain ⟨v, w, hact⟩ : ∃ v w, act host inst (p.ty d) sources vals σ.world = (some v, w) :=
    host.perform_isSome hinst _ _ _ _ _ _ _
  have hty : p.destTy ⟨inst, some d, os⟩ = p.ty d := rfl
  simp only [Program.execute, hstmt, if_neg hphi, hty, perform_eq hos hσ hb, hact, Program.assign,
    hkind, Option.getD_some]

theorem execute_perform (hb : host.SiteBlind) {inst : Instruction} (hphi : inst ≠ .phi)
    (hstmt : p.stmt id = ⟨inst, none, os⟩) :
    p.execute host ⟨0, id⟩ σ = { σ with world := (act host inst .i64 sources vals σ.world).2 } := by
  have hty : p.destTy ⟨inst, none, os⟩ = .i64 := rfl
  simp only [Program.execute, hstmt, if_neg hphi, hty, perform_eq hos hσ hb]
  rcases act host inst .i64 sources vals σ.world with ⟨_ | v, w⟩ <;> rfl

end Sources

theorem execute_assign {r : IR.GuestReg} (hstmt : p.stmt id = ⟨.copy, some d, [o]⟩)
    (hkind : p.kind d = .register r) (ho : Denotes p temps v o) (hσ : Holds σ temps vals) :
    p.execute host ⟨0, id⟩ σ = { σ with
      world := host.put (.register r) (v.eval (host.context σ.world) vals) σ.world } := by
  have hread : p.argument host σ ⟨.copy, some d, [o]⟩ 0 = v.eval (host.context σ.world) vals :=
    ho.read hσ
  simp only [Program.execute, hstmt, hread, Program.assign, hkind]
  rfl

/-- What follows the steps does what it does from a state that holds the results. -/
def Continues (p : Program) (host : Host ω) (ids : List OpId) (σ : State ω) (after : After) :
    Progress ω → Prop
  | .left how w => p.Leaves host ids σ how w
  | .on vals w => ∃ temps ids' σ', after = .on temps ids' ∧ σ'.world = w ∧ Holds σ' temps vals ∧
      ∀ how w', p.Leaves host ids' σ' how w' → p.Leaves host ids σ how w'

variable {progress : Progress ω}

theorem Continues.of_leaves {ids' : List OpId} {τ : State ω}
    (h : Continues p host ids' τ after progress)
    (hleaves : ∀ how w, p.Leaves host ids' τ how w → p.Leaves host ids σ how w) :
    Continues p host ids σ after progress := by
  cases progress with
  | left how w => exact hleaves how w h
  | on vals w =>
    obtain ⟨temps, rest, τ', hafter, hworld, hholds, hrest⟩ := h
    exact ⟨temps, rest, τ', hafter, hworld, hholds, fun how w' hl => hleaves _ _ (hrest how w' hl)⟩

theorem flow?_branchIf {yes no : IR.BlockId} (hstmt : p.stmt id = ⟨.branchIf yes no, none, [o]⟩) :
    p.flow? host σ id =
      some (.goto (if p.read host σ o &&& (p.ty o).mask ≠ 0 then yes else no)) := by
  unfold Program.flow?
  rw [hstmt]
  rfl

theorem leaves_dispatch (hstmt : p.stmt id = ⟨.dispatch, none, [o]⟩) (ho : Denotes p temps v o)
    (hσ : Holds σ temps vals) :
    p.Leaves host [id] σ (.dispatch (v.eval (host.context σ.world) vals)) σ.world := by
  refine .leave ?_
  unfold Program.flow?
  rw [hstmt, ← ho.read hσ]
  rfl

theorem leaves_exit (hstmt : p.stmt id = ⟨.exit, none, [o]⟩) (ho : Denotes p temps v o)
    (hσ : Holds σ temps vals) :
    p.Leaves host [id] σ (.exit (v.eval (host.context σ.world) vals)) σ.world := by
  refine .leave ?_
  unfold Program.flow?
  rw [hstmt, ← ho.read hσ]
  rfl

theorem eval_const_i64 (c : Context) (value : UInt64) :
    (Value.const value .i64).eval c vals = value :=
  IR.Ty.and_i64_mask value

/-- Operations that carry out steps do what the steps do. -/
theorem Realizes.continues (hb : host.SiteBlind) {steps : List Step}
    (h : Realizes p temps ids steps after) (hσ : Holds σ temps vals) :
    Continues p host ids σ after (evalSteps host steps vals σ.world) := by
  induction h generalizing σ vals with
  | nil => exact ⟨_, _, σ, rfl, rfl, hσ, fun _ _ hrest => hrest⟩
  | mention _ ih => exact ih hσ
  | @compute temps id ids inst ty sources os d k rest after hinst hstmt hkind hty hnew hos _ ih =>
    have hexec := execute_compute hos hσ hb hinst hstmt hkind
    rw [hty] at hexec
    have hterm : (p.stmt id).inst.isTerminator = false := by
      rw [hstmt]
      refine Bool.eq_false_iff.mpr fun hyes : inst.isTerminator = true => ?_
      rw [IR.Instruction.hasValue_of_isTerminator hyes] at hinst
      cases hinst
    have hholds := hσ.world (act host inst ty sources vals σ.world).2
    refine (ih (hholds.concat hnew _)).of_leaves fun how w hrest => .step hterm ?_
    rwa [hexec]
  | @perform temps id ids inst sources os rest after hterm hphi hstmt hos _ ih =>
    have hexec := execute_perform hos hσ hb hphi hstmt
    have hholds := hσ.world (act host inst .i64 sources vals σ.world).2
    refine (ih hholds).of_leaves fun how w hrest => .step (by rw [hstmt]; exact hterm) ?_
    rwa [hexec]
  | @assign temps id ids r ty v d o rest after hstmt hkind ho _ ih =>
    have hholds :=
      hσ.world (host.put (.register r) (v.eval (host.context σ.world) vals) σ.world)
    refine (ih hholds).of_leaves fun how w hrest => .step (by rw [hstmt]; rfl) ?_
    rwa [execute_assign hstmt hkind ho hσ]
  | @haltCheck temps i j e d k o next halted resume rest after hload hkind hty hnew hbranch hhalted
      hexit ho _ ih =>
    obtain ⟨τ, hτ⟩ : ∃ τ, σ.set d ((host.context σ.world).get .running &&& Ty.i32.mask) = τ :=
      ⟨_, rfl⟩
    have hexec : p.execute host ⟨0, i⟩ σ = τ := by
      rw [execute_compute .nil hσ hb rfl hload hkind, hty, ← hτ]
      rfl
    have hholds : Holds τ temps vals := hτ ▸ hσ.set hnew _
    have hworld : τ.world = σ.world := hτ ▸ rfl
    have hread : p.read host τ d = (host.context σ.world).get .running &&& Ty.i32.mask := by
      rw [Program.read, hkind, ← hτ]
      exact σ.locals_set_self d _
    have hflow : p.flow? host τ j = _ := flow?_branchIf hbranch
    rw [hread, hty, IR.Ty.mask_and_mask] at hflow
    have hterm : (p.stmt i).inst.isTerminator = false := by
      rw [hload]
      rfl
    have hstart : ∀ how w, p.Leaves host [j] τ how w → p.Leaves host [i, j] σ how w :=
      fun how w hrest => .step hterm (hexec ▸ hrest)
    rw [evalSteps, Step.eval]
    by_cases hrun : (host.context σ.world).get .running &&& Ty.i32.mask = 0
    · rw [if_pos hrun]
      rw [if_neg (not_not.mpr hrun)] at hflow
      have hleave : p.Leaves host [e] τ _ τ.world := leaves_exit hexit ho hholds
      rw [eval_const_i64, ← hhalted, hworld] at hleave
      exact hstart _ _ (.goto hflow hleave)
    · rw [if_neg hrun]
      rw [if_pos hrun] at hflow
      rw [← hworld]
      exact (ih hholds).of_leaves fun how w hrest => hstart how w (.goto hflow hrest)
  | @dispatch temps id v o rest hstmt ho => exact leaves_dispatch hstmt ho hσ
  | @branchOn temps id i j v o y n yes no target next rest hbranch ho hyes htarget hy hno hnext
      hn =>
    have hflow : p.flow? host σ id = _ := flow?_branchIf hbranch
    rw [ho.read hσ, ho.ty_eq] at hflow
    rw [evalSteps, Step.eval]
    by_cases htaken : v.eval (host.context σ.world) vals &&& v.ty.mask = 0
    · rw [if_neg (not_not.mpr htaken)] at hflow ⊢
      have hleave : p.Leaves host [j] σ _ σ.world := leaves_dispatch hnext hn hσ
      rw [eval_const_i64, ← hno] at hleave
      exact .goto hflow hleave
    · rw [if_pos htaken] at hflow ⊢
      have hleave : p.Leaves host [i] σ _ σ.world := leaves_dispatch htarget hy hσ
      rw [eval_const_i64, ← hyes] at hleave
      exact .goto hflow hleave

/-- What follows an instruction does what it does from a state with the same world. -/
def GoesOn (p : Program) (host : Host ω) (ids : List OpId) (σ : State ω)
    (next : Option (List OpId)) : Progress ω → Prop
  | .left how w => p.Leaves host ids σ how w
  | .on _ w => ∃ ids' σ', next = some ids' ∧ σ'.world = w ∧
      ∀ how w', p.Leaves host ids' σ' how w' → p.Leaves host ids σ how w'

theorem Continues.goesOn (h : Continues p host ids σ after progress)
    (hnext : ∀ temps rest, after = .on temps rest → next = some rest) :
    GoesOn p host ids σ next progress := by
  cases progress with
  | left how w => exact h
  | on vals w =>
    obtain ⟨temps, rest, σ', hafter, hworld, -, hrest⟩ := h
    exact ⟨rest, σ', hnext temps rest hafter, hworld, hrest⟩

theorem RealizesCode.goesOn (hb : host.SiteBlind) {c : Code} (h : RealizesCode p ids c next)
    (σ : State ω) :
    GoesOn p host ids σ next (c.eval host σ.world) := by
  have hnil : Holds σ [] [] := rfl
  cases h with
  | on hguard hbody =>
    rw [Code.eval, hguard]
    refine (hbody.continues hb hnil).goesOn ?_
    rintro _ _ ⟨⟩
    rfl
  | ended hguard hbody =>
    rw [Code.eval, hguard]
    refine (hbody.continues hb hnil).goesOn ?_
    rintro _ _ ⟨⟩
  | @guarded steps taken temps id o body join after hguard hsteps ho hstmt hbody hjoin =>
    have hcond := hsteps.continues hb hnil
    rw [Code.eval, hguard]
    dsimp only
    generalize evalSteps host steps [] σ.world = progress at hcond ⊢
    cases progress with
    | left how w => exact hcond
    | on vals w =>
      obtain ⟨_, _, τ, ⟨⟩, rfl, hholds, hrest⟩ := hcond
      have hflow : p.flow? host τ id = _ := flow?_branchIf hstmt
      rw [ho.read hholds, ho.ty_eq] at hflow
      dsimp only
      split at hflow
      next htaken =>
        rw [if_pos htaken]
        have hcont := hbody.continues hb (show Holds τ [] [] from rfl)
        generalize evalSteps host c.body [] τ.world = progress at hcont ⊢
        cases progress with
        | left how w => exact hrest _ _ (.goto hflow hcont)
        | on vals' w' =>
          -- the body ends in a branch to the join
          obtain ⟨temps', _, τ', hafter, hworld, -, hback⟩ := hcont
          obtain ⟨i, rfl, hbranch⟩ := hjoin temps' _ hafter
          refine ⟨_, τ', rfl, hworld, fun how w'' hl => hrest _ _ (.goto hflow (hback _ _ ?_))⟩
          exact .goto (by rw [Program.flow?, hbranch]) hl
      next htaken =>
        rw [if_neg htaken]
        exact ⟨_, τ, rfl, rfl, fun how w' hl => hrest _ _ (.goto hflow hl)⟩

theorem RealizesBlock.leaves (hb : host.SiteBlind) {limit : UInt64} {codes : List Code}
    (h : RealizesBlock p limit ids codes) (σ : State ω) :
    p.Leaves host ids σ (evalCodes host limit codes σ.world).1
      (evalCodes host limit codes σ.world).2 := by
  induction h generalizing σ with
  | @nil id o hstmt ho =>
    have hnil : Holds σ [] [] := rfl
    have hleave : p.Leaves host [id] σ _ σ.world := leaves_dispatch hstmt ho hnil
    rw [eval_const_i64] at hleave
    exact hleave
  | @next ids ids' c rest hcode _ ih =>
    have hgoes := hcode.goesOn hb σ
    rw [evalCodes]
    generalize c.eval host σ.world = progress at hgoes ⊢
    cases progress with
    | left how w => exact hgoes
    | on vals w =>
      obtain ⟨_, τ, ⟨⟩, rfl, hrest⟩ := hgoes
      exact hrest _ _ (ih τ)
  | @last ids c rest hcode =>
    have hgoes := hcode.goesOn hb σ
    rw [evalCodes]
    generalize c.eval host σ.world = progress at hgoes ⊢
    cases progress with
    | left how w => exact hgoes
    | on vals w =>
      obtain ⟨_, τ, ⟨⟩, -⟩ := hgoes

/-! ### Functions of blocks -/

def evalEntry (host : Host ω) (options : Options) (start : UInt64) (w : ω) : ω :=
  if options.tier = .fast ∧ options.counter ≠ 0 then
    (host.answer ⟨0, ⟨0⟩⟩ (.countCall options.counter start options.threshold) w).2
  else w

theorem evalSteps_countEntry (options : Options) (start : UInt64) (w : ω) :
    evalSteps host (countEntry options start) [] w = .on [] (evalEntry host options start w) := by
  unfold countEntry evalEntry
  split
  · simp [evalSteps, Step.eval, act, argument, Value.eval, Host.perform, IR.Instruction.request?]
  · rfl

def evalBlock (host : Host ω) (block : Guest.Block) (mode : Guest.Mode) (options : Options)
    (w : ω) : Leave × ω :=
  evalCodes host block.limit (block.opcodes.map (code mode)) (evalEntry host options block.start w)

/-- The function of a block runs as its instructions say. -/
theorem run_function (hb : host.SiteBlind) {block : Guest.Block} {mode : Guest.Mode}
    (hops : ∀ op ∈ block.opcodes, (code mode op).Proper mode op.address) (options : Options)
    (w : ω) :
    ∃ n, (function block mode options).program.run host w n =
      .left (evalBlock host block mode options w).1 (evalBlock host block mode options w).2 := by
  obtain ⟨hdraft, ⟨temps, id, b, hentry, hstmt, hblock⟩⟩ := draft_function hops options
  obtain ⟨p, hp⟩ : ∃ p, (function block mode options).program = p := ⟨_, rfl⟩
  have hphi := fun b id hid => (hdraft.admissible b id hid).not_phi
  rw [hp] at hentry hstmt hblock hphi ⊢
  have hnil : Holds (⟨fun _ => 0, w⟩) [] [] := rfl
  have hcont := hentry.continues hb hnil
  rw [evalSteps_countEntry] at hcont
  obtain ⟨_, _, τ, ⟨⟩, hworld, -, hback⟩ := hcont
  have hleaves := hblock.leaves hb τ
  rw [hworld] at hleaves
  have hstart : p.run host w 0 = .running none IR.Function.entry ⟨fun _ => 0, w⟩ := rfl
  exact (hback _ _ (.goto (by rw [Program.flow?, hstmt]) hleaves)).run hb hphi hstart rfl

end Lift

end Dynarec
