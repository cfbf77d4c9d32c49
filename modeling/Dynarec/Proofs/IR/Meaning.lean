import Dynarec.IR.Run
import Dynarec.Proofs.IR.Paths

/-!
# Meaning of programs

A program runs block by block. Registers are read and written in the context, locals in a frame of
their own, and the phis of a block all take their values at once when it is entered. What the host
answers may depend on which operation asks in which visit of a block, so that two executions of one
operation can be told apart.
-/

namespace Dynarec

open List

/-- The context with the registers and flags of another one. -/
def Context.withRegisters (c r : Context) : Context := { c with x := r.x, nzcv := r.nzcv }

namespace IR

open Guest (AccessSize)

structure Site where
  visit : Nat
  op : OpId

/-- Calls at which the host may look at the registers and change them. -/
inductive Call where
  | supervisor
  | breakpoint
  | undefined
deriving DecidableEq

inductive Request where
  | load (size : AccessSize) (address : UInt64)
  | store (size : AccessSize) (address value : UInt64)
  | readCounter
  | readFrequency
  | call (kind : Call) (pc : UInt64) (payload : UInt32)
  | invalidateLine (address : UInt64)
  | countCall (counter guest threshold : UInt64)
deriving DecidableEq

namespace Request

def synchronizes : Request → Bool
  | call _ _ _ => true
  | _ => false

def hasResult : Request → Bool
  | load _ _ | readCounter | readFrequency => true
  | _ => false

def isCounter : Request → Bool
  | readCounter | readFrequency => true
  | _ => false

/-- What a request may make of the context when the host wants another one: only the calls that
synchronize change registers. -/
def allow (q : Request) (old new : Context) : Context :=
  if q.synchronizes then new else if q.isCounter then old else new.withRegisters old

end Request

/-- The host as programs see it, over a world that holds the guest context. -/
structure Host (ω : Type) where
  context : ω → Context
  /-- A store to a field of the context. -/
  put : Field → UInt64 → ω → ω
  answer : Site → Request → ω → UInt64 × ω

def Native.host {ω : Type} (native : Native ω) : Host ω where
  context := native.context
  put field value := native.mapContext (·.put field value)
  answer _ request world :=
    match request with
    | .load size address => native.load size address world
    | .store size address value => (0, native.store size address value world)
    | .readCounter => native.readCounter world
    | .readFrequency => native.readFrequency world
    | .call .supervisor pc payload => (0, native.supervisorCall pc payload world)
    | .call .breakpoint pc payload => (0, native.breakpoint pc payload world)
    | .call .undefined pc payload => (0, native.undefined pc payload world)
    | .invalidateLine address => (0, native.invalidateLine address world)
    | .countCall counter guest threshold => (0, native.countCall counter guest threshold world)

namespace Instruction

def request? (inst : Instruction) (a b c : UInt64) : Option Request :=
  match inst with
  | load size => some (.load size a)
  | store size => some (.store size a b)
  | readCounter => some .readCounter
  | readFrequency => some .readFrequency
  | supervisorCall => some (.call .supervisor a b.toUInt32)
  | breakpoint => some (.call .breakpoint a b.toUInt32)
  | undefined => some (.call .undefined a b.toUInt32)
  | invalidateCacheLine => some (.invalidateLine a)
  | countCall => some (.countCall a b c)
  | _ => none

/-- The sources as a pure instruction sees them: a comparison and the condition of a selection look
at the bits of their type only. -/
def arguments (inst : Instruction) (sourceTy : Ty) (a b c : UInt64) : List UInt64 :=
  match inst with
  | .compare _ => [a &&& sourceTy.mask, b &&& sourceTy.mask]
  | .select => [a &&& sourceTy.mask, b, c]
  | _ => [a, b, c]

/-- The value of an instruction that only reads its sources. A copy moves all bits. -/
def pureValue (inst : Instruction) (ty sourceTy : Ty) (a b c : UInt64) : UInt64 :=
  match inst with
  | .copy => a
  | inst => (inst.evaluate? ty sourceTy (inst.arguments sourceTy a b c)).getD 0

end Instruction

/-- What one instruction does to the world, and its result if it has one. -/
def Host.perform {ω : Type} (host : Host ω) (site : Site) (inst : Instruction) (ty sourceTy : Ty)
    (a b c : UInt64) (world : ω) : Option UInt64 × ω :=
  match inst.request? a b c with
  | some request =>
    let (value, world) := host.answer site request world
    (if request.hasResult then some (value &&& ty.mask) else none, world)
  | none =>
    match inst with
    | .loadContext field => (some ((host.context world).get field &&& ty.mask), world)
    | .storeContext field => (none, host.put field a world)
    | inst => (some (inst.pureValue ty sourceTy a b c), world)

@[ext] structure State (ω : Type) where
  locals : OperandId → UInt64
  world : ω

namespace State

variable {ω : Type} (σ : State ω)

def set (o : OperandId) (value : UInt64) : State ω :=
  { σ with locals := Function.update σ.locals o value }

@[simp] theorem locals_set_self (o : OperandId) (value : UInt64) :
    (σ.set o value).locals o = value :=
  Function.update_self _ _ _

theorem locals_set_of_ne {o p : OperandId} (h : p ≠ o) (value : UInt64) :
    (σ.set o value).locals p = σ.locals p :=
  Function.update_of_ne h _ _

end State

inductive Flow where
  | goto (block : BlockId)
  | leave (how : Leave)
deriving DecidableEq

/-- How far a run got: about to enter a block, out of the function, or at the end of a block that
has no terminator. -/
inductive Outcome (ω : Type) where
  | running (pred : Option BlockId) (block : BlockId) (state : State ω)
  | left (how : Leave) (world : ω)
  | stuck

namespace Program

variable {ω : Type} (p : Program) (host : Host ω) {id last : OpId} {ids first rest : List OpId}
  {visit : Nat} {pred : Option BlockId} {b : BlockId}

def read (σ : State ω) (o : OperandId) : UInt64 :=
  match p.kind o with
  | .local_ _ => σ.locals o
  | .constant value => value
  | .register reg => (host.context σ.world).get (.register reg) &&& (p.ty o).mask
  | .undefined => 0

def argument (σ : State ω) (s : Stmt) (i : Nat) : UInt64 :=
  match s.sources[i]? with
  | some o => p.read host σ o
  | none => 0

def sourceTy (s : Stmt) : Ty :=
  match s.sources[0]? with
  | some o => p.ty o
  | none => .i64

def destTy (s : Stmt) : Ty :=
  match s.dest with
  | some o => p.ty o
  | none => .i64

section Map

variable {p host} {q : Program} {s t : Stmt} {g : OperandId → OperandId}
  (hsources : t.sources = s.sources.map g)

include hsources

theorem argument_map {σ τ : State ω} (h : ∀ o ∈ s.sources, q.read host τ (g o) = p.read host σ o)
    (i : Nat) : q.argument host τ t i = p.argument host σ s i := by
  unfold argument
  rw [hsources, getElem?_map]
  cases ho : s.sources[i]? with
  | none => rfl
  | some o => exact h o (mem_of_getElem? ho)

theorem sourceTy_map (h : ∀ o ∈ s.sources, q.ty (g o) = p.ty o) : q.sourceTy t = p.sourceTy s := by
  unfold sourceTy
  rw [hsources, getElem?_map]
  cases ho : s.sources[0]? with
  | none => rfl
  | some o => exact h o (mem_of_getElem? ho)

end Map

def assign (dest : Option OperandId) (value : UInt64) (σ : State ω) : State ω :=
  match dest with
  | none => σ
  | some d =>
    match p.kind d with
    | .local_ _ => σ.set d value
    | .register reg => { σ with world := host.put (.register reg) value σ.world }
    | .constant _ | .undefined => σ

/-- One operation that ends no block. Phis have been carried out on entry. -/
def execute (site : Site) (σ : State ω) : State ω :=
  let s := p.stmt site.op
  if s.inst = .phi then σ
  else
    match host.perform site s.inst (p.destTy s) (p.sourceTy s) (p.argument host σ s 0)
        (p.argument host σ s 1) (p.argument host σ s 2) σ.world with
    | (some value, world) => p.assign host s.dest value { σ with world }
    | (none, world) => { σ with world }

def flow? (σ : State ω) (id : OpId) : Option Flow :=
  let s := p.stmt id
  let a := p.argument host σ s 0
  match s.inst with
  | .branch target => some (.goto target)
  | .branchIf then_ otherwise =>
    some (.goto (if a &&& (p.sourceTy s).mask ≠ 0 then then_ else otherwise))
  | .dispatch => some (.leave (.dispatch a))
  | .exit => some (.leave (.exit a))
  | _ => none

def runCode (visit : Nat) : List OpId → State ω → Option Flow × State ω
  | [], σ => (none, σ)
  | id :: rest, σ =>
    match p.flow? host σ id with
    | some flow => (some flow, σ)
    | none => runCode visit rest (p.execute host ⟨visit, id⟩ σ)

def phiSource? (b : BlockId) (k : Nat) (o : OperandId) : Option OperandId :=
  (p.code b).findSome? fun id =>
    if (p.stmt id).inst = .phi ∧ (p.stmt id).dest = some o then (p.stmt id).sources[k]? else none

def enter (pred : Option BlockId) (b : BlockId) (σ : State ω) : State ω :=
  match pred.bind fun q => (p.preds b).idxOf? q with
  | none => σ
  | some k =>
    { σ with
      locals := fun o =>
        match p.phiSource? b k o with
        | some s => p.read host σ s
        | none => σ.locals o }

def advance (visit : Nat) : Outcome ω → Outcome ω
  | .running pred b σ =>
    match p.runCode host visit (p.code b) (p.enter host pred b σ) with
    | (some (.goto next), σ) => .running (some b) next σ
    | (some (.leave how), σ) => .left how σ.world
    | (none, _) => .stuck
  | outcome => outcome

/-- Run at most so many blocks from the entry. Locals that were never set are zero. -/
def run (world : ω) : Nat → Outcome ω
  | 0 => .running none Function.entry ⟨fun _ => 0, world⟩
  | n + 1 => p.advance host n (run world n)

section Enter

/-- A predecessor has a place among the predecessors. -/
theorem exists_idxOf?_preds {b c : BlockId} (h : c ∈ p.preds b) :
    ∃ k, (p.preds b).idxOf? c = some k ∧ (p.preds b)[k]? = some c := by
  obtain ⟨k, hk⟩ := Option.isSome_iff_exists.mp (isSome_idxOf?.mpr h)
  obtain ⟨hlt, heq, -⟩ := idxOf?_eq_some_iff.mp hk
  exact ⟨k, hk, List.getElem?_eq_some_iff.mpr ⟨hlt, heq⟩⟩

variable {pred b : BlockId} {k : Nat} (hk : (p.preds b).idxOf? pred = some k) (σ : State ω)

@[simp] theorem world_enter (pred : Option BlockId) (b : BlockId) (σ : State ω) :
    (p.enter host pred b σ).world = σ.world := by
  unfold enter
  split <;> rfl

include hk

theorem locals_enter_of_some {o s : OperandId} (hs : p.phiSource? b k o = some s) :
    (p.enter host (some pred) b σ).locals o = p.read host σ s := by
  simp [enter, hk, hs]

theorem locals_enter_of_none {o : OperandId} (ho : p.phiSource? b k o = none) :
    (p.enter host (some pred) b σ).locals o = σ.locals o := by
  simp [enter, hk, ho]

end Enter

theorem flow?_isSome (σ : State ω) (id : OpId) :
    (p.flow? host σ id).isSome = (p.stmt id).inst.isTerminator := by
  cases h : (p.stmt id).inst <;> simp [flow?, h, Instruction.isTerminator]

theorem flow?_eq_none (σ : State ω) (h : (p.stmt id).inst.isTerminator = false) :
    p.flow? host σ id = none := by
  rw [← Option.not_isSome_iff_eq_none, flow?_isSome, h]
  exact Bool.false_ne_true

variable {p host} in
theorem isTerminator_of_flow? {σ : State ω} {id : OpId} {flow : Option Flow}
    (h : p.flow? host σ id = flow) : (p.stmt id).inst.isTerminator = flow.isSome :=
  (p.flow?_isSome host σ id).symm.trans (congrArg _ h)

/-- A list of operations that ends in a terminator and has no other. -/
def Terminated (p : Program) : List OpId → Prop
  | [] => False
  | [id] => (p.stmt id).inst.isTerminator = true
  | id :: rest => (p.stmt id).inst.isTerminator = false ∧ p.Terminated rest

theorem Terminated.tail {p : Program} (h : p.Terminated (id :: ids))
    (hid : (p.stmt id).inst.isTerminator = false) :
    p.Terminated ids := by
  cases ids with
  | nil =>
    rw [Terminated, hid] at h
    cases h
  | cons next rest => exact h.2

theorem Terminated.of_append {p : Program} (h : p.Terminated (first ++ id :: rest)) :
    p.Terminated (id :: rest) := by
  induction first with
  | nil => exact h
  | cons x first ih =>
    cases first with
    | nil => exact h.2
    | cons y first => exact ih h.2

theorem Terminated.exists_last {p : Program} (h : p.Terminated ids) :
    ∃ first last, ids = first ++ [last] ∧ (p.stmt last).inst.isTerminator = true := by
  induction ids with
  | nil => exact h.elim
  | cons id ids ih =>
    cases ids with
    | nil => exact ⟨[], id, rfl, h⟩
    | cons next rest =>
      obtain ⟨first, last, heq, hlast⟩ := ih h.2
      exact ⟨id :: first, last, congrArg (cons id) heq, hlast⟩

theorem Terminated.eq_nil {p : Program} (h : p.Terminated (id :: ids))
    (hid : (p.stmt id).inst.isTerminator = true) : ids = [] := by
  cases ids with
  | nil => rfl
  | cons next rest =>
    have hnot : (p.stmt id).inst.isTerminator = false := h.1
    rw [hid] at hnot
    cases hnot

theorem Terminated.concat {p : Program} (h : ∀ id ∈ ids, (p.stmt id).inst.isTerminator = false)
    (hlast : (p.stmt last).inst.isTerminator = true) : p.Terminated (ids ++ [last]) := by
  induction ids with
  | nil => exact hlast
  | cons id ids ih =>
    have hid := h id (.head _)
    have hrest := ih fun x hx => h x (.tail _ hx)
    cases ids with
    | nil => exact ⟨hid, hrest⟩
    | cons next rest => exact ⟨hid, hrest⟩

/-- Only the last operation of a block is a terminator. -/
theorem Terminated.front {p : Program} (h : p.Terminated (first ++ [last])) (hid : id ∈ first) :
    (p.stmt id).inst.isTerminator = false := by
  obtain ⟨before, after, rfl⟩ := append_of_mem hid
  rw [append_assoc] at h
  by_contra hyes
  have hnil := h.of_append.eq_nil (by simpa using hyes)
  simp at hnil

theorem Terminated.congr {p q : Program}
    (h : ∀ id ∈ ids, (q.stmt id).inst.isTerminator = (p.stmt id).inst.isTerminator)
    (hterm : p.Terminated ids) : q.Terminated ids := by
  obtain ⟨first, last, rfl, hlast⟩ := hterm.exists_last
  refine .concat (fun id hid => ?_) ((h last (by simp)).trans hlast)
  exact (h id (mem_append_left _ hid)).trans (hterm.front hid)

variable {p host}

variable {σ : State ω}

/-- A block leads where its terminator leads. -/
theorem Terminated.successors_eq (h : p.Terminated (p.code b)) (hid : id ∈ p.code b)
    (hlast : (p.stmt id).inst.isTerminator = true) : p.successors b = (p.stmt id).inst.targets := by
  obtain ⟨first, last, hcode, -⟩ := h.exists_last
  rw [hcode] at h hid
  rcases mem_append.mp hid with hid | hid
  · rw [h.front hid] at hlast
    cases hlast
  · rw [mem_singleton.mp hid, successors, hcode, getLast?_concat]

theorem Terminated.mem_successors (h : p.Terminated (p.code b)) (hid : id ∈ p.code b) {c : BlockId}
    (hc : c ∈ (p.stmt id).inst.targets) : c ∈ p.successors b := by
  rw [h.successors_eq hid]
  · exact hc
  · by_contra hno
    rw [Instruction.targets_of_not_terminator (by simpa using hno)] at hc
    cases hc

theorem runCode_phis {phis : List OpId} (hphis : ∀ id ∈ phis, (p.stmt id).inst = .phi) :
    p.runCode host visit (phis ++ rest) σ = p.runCode host visit rest σ := by
  induction phis with
  | nil => rfl
  | cons id phis ih =>
    have hid := hphis id (.head _)
    have hflow : p.flow? host σ id = none := by simp [flow?, hid]
    have hexec : p.execute host ⟨visit, id⟩ σ = σ := by simp [execute, hid]
    rw [cons_append, runCode, hflow]
    simp only [hexec]
    exact ih fun x hx => hphis x (.tail _ hx)

theorem exists_of_phiSource? {k : Nat} {o s : OperandId} (h : p.phiSource? b k o = some s) :
    ∃ id ∈ p.code b, (p.stmt id).inst = .phi ∧ (p.stmt id).dest = some o ∧
      (p.stmt id).sources[k]? = some s := by
  obtain ⟨id, hid, hsome⟩ := exists_of_findSome?_eq_some h
  obtain ⟨⟨hphi, hdest⟩, hs⟩ := Option.ite_none_right_eq_some.mp hsome
  exact ⟨id, hid, hphi, hdest, hs⟩

/-- The phis of an operand that agree with one of them. -/
theorem phiSource?_of_mem {k : Nat} {o : OperandId} (hid : id ∈ p.code b)
    (hphi : (p.stmt id).inst = .phi) (hdest : (p.stmt id).dest = some o)
    (hsame : ∀ x ∈ p.code b, (p.stmt x).inst = .phi → (p.stmt x).dest = some o →
      (p.stmt x).sources = (p.stmt id).sources) :
    p.phiSource? b k o = (p.stmt id).sources[k]? := by
  cases hsource : p.phiSource? b k o with
  | none =>
    have hnone := findSome?_eq_none_iff.mp hsource id hid
    rw [if_pos ⟨hphi, hdest⟩] at hnone
    exact hnone.symm
  | some s =>
    obtain ⟨x, hx, hinst, hdest', hs⟩ := exists_of_phiSource? hsource
    rw [← hsame x hx hinst hdest', hs]

/-- A program without phis has nothing to do on entry. -/
theorem enter_of_not_phi (h : ∀ id ∈ p.code b, (p.stmt id).inst ≠ .phi) :
    p.enter host pred b σ = σ := by
  have hnone : ∀ k o, p.phiSource? b k o = none := by
    intro k o
    exact findSome?_eq_none_iff.mpr fun id hid => if_neg fun hphi => h id hid hphi.1
  unfold enter
  split
  · rfl
  · simp only [hnone]

theorem exists_target {τ : State ω} {c : BlockId}
    (hrun : p.runCode host visit ids σ = (some (.goto c), τ)) :
    ∃ id ∈ ids, c ∈ (p.stmt id).inst.targets := by
  induction ids generalizing σ with
  | nil => cases hrun
  | cons id rest ih =>
    rw [runCode] at hrun
    cases hf : p.flow? host σ id with
    | none =>
      rw [hf] at hrun
      obtain ⟨x, hx, hc⟩ := ih hrun
      exact ⟨x, .tail _ hx, hc⟩
    | some flow =>
      rw [hf] at hrun
      cases hrun
      refine ⟨id, .head _, ?_⟩
      cases hinst : (p.stmt id).inst with
      | branch target =>
        simp only [flow?, hinst, Option.some.injEq, Flow.goto.injEq] at hf
        simp [Instruction.targets, hf]
      | branchIf then_ otherwise =>
        simp only [flow?, hinst, Option.some.injEq, Flow.goto.injEq] at hf
        rw [Instruction.mem_targets_branchIf, ← hf]
        split <;> simp
      | _ => simp [flow?, hinst] at hf

theorem Terminated.goto_successor {τ : State ω} {c : BlockId} (h : p.Terminated (p.code b))
    (hrun : p.runCode host visit (p.code b) σ = (some (.goto c), τ)) : c ∈ p.successors b := by
  obtain ⟨id, hid, hc⟩ := exists_target hrun
  exact h.mem_successors hid hc

/-- A program whose blocks end in terminators stays in what can be reached. -/
theorem reachable_of_run (hterm : ∀ b, p.Reachable b → p.Terminated (p.code b)) {w : ω} {n : Nat}
    (hrun : p.run host w n = .running pred b σ) : p.Reachable b := by
  induction n generalizing pred b σ with
  | zero =>
    cases hrun
    exact .entry
  | succ n ih =>
    rw [Program.run] at hrun
    cases hprev : p.run host w n with
    | running pred' b' σ' =>
      have hb' := ih hprev
      rw [hprev, Program.advance] at hrun
      split at hrun
      · next next τ hcode =>
        cases hrun
        exact .step hb' ((hterm b' hb').goto_successor hcode)
      · cases hrun
      · cases hrun
    | left how w' =>
      rw [hprev] at hrun
      cases hrun
    | stuck =>
      rw [hprev] at hrun
      cases hrun

end Program

/-! ### Programs with the same reachable part -/

theorem forall₂_imp_mem {α β : Type} {R S : α → β → Prop} {l : List α} {u : List β}
    (h : List.Forall₂ R l u) (himp : ∀ a ∈ l, ∀ b ∈ u, R a b → S a b) : List.Forall₂ S l u := by
  induction h with
  | nil => exact .nil
  | cons hr _ ih =>
    exact .cons (himp _ (.head _) _ (.head _) hr)
      (ih fun a ha b hb => himp a (.tail _ ha) b (.tail _ hb))

theorem findSome?_congr {α β : Type} {l : List α} {f g : α → Option β}
    (h : ∀ a ∈ l, f a = g a) : l.findSome? f = l.findSome? g := by
  induction l with
  | nil => rfl
  | cons a l ih =>
    rw [findSome?_cons, findSome?_cons, h a (.head _), ih fun x hx => h x (.tail _ hx)]

/-- `q` has the operations of `p` in every block that can be reached. -/
structure Program.Alike (p q : Program) : Prop where
  code : ∀ b, p.Reachable b → q.code b = p.code b
  stmt : ∀ b, p.Reachable b → ∀ id ∈ p.code b, q.stmt id = p.stmt id
  operand : ∀ b, p.Reachable b → ∀ id ∈ p.code b, ∀ o,
    o ∈ (p.stmt id).sources ∨ (p.stmt id).dest = some o → q.kind o = p.kind o ∧ q.ty o = p.ty o

namespace Program.Alike

variable {ω : Type} {p q : Program} {host : Host ω} {b : BlockId}

theorem successors (h : p.Alike q) (hb : p.Reachable b) : q.successors b = p.successors b :=
  successors_congr (h.code b hb) (h.stmt b hb)

theorem reachable (h : p.Alike q) : q.Reachable b ↔ p.Reachable b := by
  have hback : ∀ {b}, q.Reachable b → p.Reachable b := fun hb =>
    hb.mono fun b c hb hc => h.successors hb ▸ hc
  exact ⟨hback, fun hb => hb.mono fun b c hb hc => (h.successors (hback hb)).symm ▸ hc⟩

section Code

variable (h : p.Alike q) {b : BlockId} (hb : p.Reachable b) {id : OpId}

include h hb

section

variable (hid : id ∈ p.code b)

include hid

theorem argument (σ : State ω) (i : Nat) :
    q.argument host σ (p.stmt id) i = p.argument host σ (p.stmt id) i := by
  refine argument_map (map_id' _).symm (fun o ho => ?_) i
  obtain ⟨hkind, hty⟩ := h.operand b hb id hid o (.inl ho)
  rw [Program.read, Program.read, hkind, hty]

theorem sourceTy : q.sourceTy (p.stmt id) = p.sourceTy (p.stmt id) :=
  sourceTy_map (map_id' _).symm fun o ho => (h.operand b hb id hid o (.inl ho)).2

theorem destTy : q.destTy (p.stmt id) = p.destTy (p.stmt id) := by
  unfold Program.destTy
  split
  · next o ho => exact (h.operand b hb id hid o (.inr ho)).2
  · rfl

theorem assign (v : UInt64) (σ : State ω) :
    q.assign host (p.stmt id).dest v σ = p.assign host (p.stmt id).dest v σ := by
  unfold Program.assign
  split
  · rfl
  · next o ho => rw [(h.operand b hb id hid o (.inr ho)).1]

theorem execute (visit : Nat) (σ : State ω) :
    q.execute host ⟨visit, id⟩ σ = p.execute host ⟨visit, id⟩ σ := by
  simp only [Program.execute, h.stmt b hb id hid, h.argument hb hid, h.sourceTy hb hid,
    h.destTy hb hid, h.assign hb hid]

theorem flow? (σ : State ω) : q.flow? host σ id = p.flow? host σ id := by
  simp only [Program.flow?, h.stmt b hb id hid, h.argument hb hid, h.sourceTy hb hid]

end

theorem runCode {ids : List OpId} (hids : ∀ id ∈ ids, id ∈ p.code b) (visit : Nat) (σ : State ω) :
    q.runCode host visit ids σ = p.runCode host visit ids σ := by
  induction ids generalizing σ with
  | nil => rfl
  | cons id ids ih =>
    have hid := hids id (.head _)
    simp only [Program.runCode, h.flow? hb hid, h.execute hb hid,
      ih fun x hx => hids x (.tail _ hx)]

end Code

theorem terminated (h : p.Alike q) (hb : p.Reachable b) (hterm : p.Terminated (p.code b)) :
    q.Terminated (q.code b) := by
  rw [h.code b hb]
  exact hterm.congr fun id hid => by rw [h.stmt b hb id hid]

theorem enter (h : p.Alike q) (hb : p.Reachable b)
    (hpreds : q.preds b = p.preds b ∨ ∀ id ∈ p.code b, (p.stmt id).inst ≠ .phi)
    (pred : Option BlockId) (σ : State ω) : q.enter host pred b σ = p.enter host pred b σ := by
  rcases hpreds with hpreds | hphi
  · have hsource : ∀ k o, q.phiSource? b k o = p.phiSource? b k o := by
      intro k o
      unfold Program.phiSource?
      rw [h.code b hb]
      refine findSome?_congr fun id hid => ?_
      rw [h.stmt b hb id hid]
    unfold Program.enter
    rw [hpreds]
    split
    · rfl
    next k _ =>
      refine congrArg (fun locals => { σ with locals }) (funext fun o => ?_)
      rw [hsource]
      split
      next s hs =>
        obtain ⟨id, hid, -, -, hsome⟩ := exists_of_phiSource? hs
        obtain ⟨hkind, hty⟩ := h.operand b hb id hid s (.inl (mem_of_getElem? hsome))
        rw [Program.read, Program.read, hkind, hty]
      · rfl
  · rw [enter_of_not_phi hphi, enter_of_not_phi]
    intro id hid
    rw [h.code b hb] at hid
    rw [h.stmt b hb id hid]
    exact hphi id hid

/-- The two programs run in the same way, if phis find the same predecessors. -/
theorem run_eq (h : p.Alike q) (hterm : ∀ b, p.Reachable b → p.Terminated (p.code b))
    (hpreds : ∀ b, p.Reachable b →
      q.preds b = p.preds b ∨ ∀ id ∈ p.code b, (p.stmt id).inst ≠ .phi) (w : ω) (n : Nat) :
    q.run host w n = p.run host w n := by
  induction n with
  | zero => rfl
  | succ n ih =>
    rw [Program.run, Program.run, ih]
    cases hprev : p.run host w n with
    | running pred b σ =>
      have hb := reachable_of_run hterm hprev
      rw [Program.advance, Program.advance, h.enter hb (hpreds b hb), h.code b hb,
        h.runCode hb fun _ hid => hid]
    | left how w' => rfl
    | stuck => rfl

end Program.Alike

/-! ### Environments -/

/-- What a run shows: the requests, each with the context it was made in, and the stores to the
context. -/
inductive Event where
  | request (request : Request) (context : Context)
  | put (field : Field) (value : UInt64)
deriving DecidableEq

/-- The context and what has happened so far, the latest first. -/
structure Trace where
  context : Context
  events : List Event

structure Environment where
  answer : Site → Request → List Event → UInt64 × Context

def Environment.host (E : Environment) (observe : Event → Option Event) : Host Trace where
  context := Trace.context
  put field value w := ⟨w.context.put field value, .put field value :: w.events⟩
  answer site request w :=
    let events := .request request w.context :: w.events
    let (value, context) := E.answer site request (events.filterMap observe)
    (value, ⟨request.allow w.context context, events⟩)

end IR

end Dynarec
