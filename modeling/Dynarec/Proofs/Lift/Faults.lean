import Dynarec.Proofs.Lift.Meaning

/-!
# Accesses that stop the guest

The host may stop the guest when it is asked for a load or a store. The code of the instruction then
leaves for the address of that instruction, before it has changed a register: what was done since
the instruction began are accesses to memory and nothing else.
-/

namespace Dynarec

open List

namespace IR

def Request.isAccess : Request → Bool
  | load _ _ | store _ _ _ => true
  | _ => false

/-- What an environment answers to a request, by all that it has seen up to it. -/
abbrev Answers := Request → List Event → UInt64 × Context

def Answers.host (answer : Answers) (observe : Event → Option Event) : Host Trace :=
  (Environment.mk fun _ => answer).host observe

namespace Event

def request? : Event → Option Request
  | request q _ => some q
  | put _ _ => none

def isAccess (e : Event) : Bool := e.request?.any Request.isAccess

/-- Accesses and reads of the counters; they keep the registers. -/
def isReading (e : Event) : Bool := e.request?.any fun q => q.isAccess || q.isCounter

/-- The event is an access that was answered by stopping the guest, after the earlier ones. -/
def stops (answer : Answers) (earlier : List Event) : Event → Bool
  | request q c => q.isAccess && (answer q (request q c :: earlier)).2.running == 0
  | put _ _ => false

end Event

/-- One of the events, the latest first, is an access that was answered by stopping the guest. -/
def stopped (answer : Answers) : List Event → Bool
  | [] => false
  | e :: earlier => e.stops answer earlier || stopped answer earlier

/-- Accesses are seen, and what is seen looks like what it is. -/
structure ShowsAccesses (observe : Event → Option Event) : Prop where
  access : ∀ q c, q.isAccess = true → ∃ c', observe (.request q c) = some (.request q c')
  request? : ∀ e e', observe e = some e' → e'.request? = e.request?

variable {answer : Answers} {observe : Event → Option Event}

theorem stopped_append {events new : List Event} (hnew : ∀ e ∈ new, e.isAccess = false) :
    stopped answer (new ++ events) = stopped answer events := by
  induction new with
  | nil => rfl
  | cons e new ih =>
    have he := hnew e (.head _)
    have hstops : e.stops answer (new ++ events) = false := by
      cases e with
      | put _ _ => rfl
      | request q c =>
        have hq : q.isAccess = false := he
        simp [Event.stops, hq]
    rw [cons_append, stopped, hstops]
    exact ih fun x hx => hnew x (.tail _ hx)

/-- What has happened since holds no access. -/
theorem stopped_filterMap_append (hshows : ShowsAccesses observe) {events new : List Event}
    (hnew : ∀ e ∈ new, e.isAccess = false) :
    stopped answer ((new ++ events).filterMap observe) =
      stopped answer (events.filterMap observe) := by
  rw [filterMap_append]
  refine stopped_append fun e he => ?_
  obtain ⟨x, hx, hobserve⟩ := mem_filterMap.mp he
  rw [Event.isAccess, hshows.request? x e hobserve]
  exact hnew x hx

namespace Trace

variable {w w' w'' : Trace}

/-- The registers are the same, and only accesses and reads of the counters were made meanwhile. -/
structure Reads (w w' : Trace) : Prop where
  x : w'.context.x = w.context.x
  nzcv : w'.context.nzcv = w.context.nzcv
  events : ∃ new, w'.events = new ++ w.events ∧ ∀ e ∈ new, e.isReading = true

theorem Reads.refl (w : Trace) : w.Reads w := ⟨rfl, rfl, [], rfl, by simp⟩

theorem Reads.trans (h : w.Reads w') (h' : w'.Reads w'') : w.Reads w'' := by
  obtain ⟨new, hnew, hreading⟩ := h.events
  obtain ⟨new', hnew', hreading'⟩ := h'.events
  refine ⟨h'.x.trans h.x, h'.nzcv.trans h.nzcv, new' ++ new, ?_, fun e he => ?_⟩
  · rw [hnew', hnew, append_assoc]
  · rcases mem_append.mp he with he | he
    · exact hreading' e he
    · exact hreading e he

def Accessless (w w' : Trace) : Prop :=
  ∃ new, w'.events = new ++ w.events ∧ ∀ e ∈ new, e.isAccess = false

theorem Accessless.refl (w : Trace) : w.Accessless w := ⟨[], rfl, by simp⟩

theorem Accessless.trans (h : w.Accessless w') (h' : w'.Accessless w'') : w.Accessless w'' := by
  obtain ⟨new, hnew, hnone⟩ := h
  obtain ⟨new', hnew', hnone'⟩ := h'
  refine ⟨new' ++ new, by rw [hnew', hnew, append_assoc], fun e he => ?_⟩
  rcases mem_append.mp he with he | he
  · exact hnone' e he
  · exact hnone e he

section

variable (answer observe w)

/-- Whether the environment has stopped the guest at an access that it saw. -/
def stopped : Bool :=
  IR.stopped answer (w.events.filterMap observe)

/-- The latest event that the environment saw is an access at which it stopped the guest, the first
one. -/
def JustStopped : Prop :=
  ∃ e earlier, w.events.filterMap observe = e :: earlier ∧ e.stops answer earlier = true ∧
    IR.stopped answer earlier = false

end

theorem Accessless.stopped_eq (h : w.Accessless w') (hshows : ShowsAccesses observe) :
    w'.stopped answer observe = w.stopped answer observe := by
  obtain ⟨new, hnew, hnone⟩ := h
  unfold stopped
  rw [hnew]
  exact stopped_filterMap_append hshows hnone

end Trace

end IR

namespace Lift

open Guest (Mode Opcode)
open IR (Answers Event Host Instruction Leave Request ShowsAccesses Trace Ty)

section Operations

variable (answer : Answers) (observe : Event → Option Event) (q : Request) (w : Trace)
  {inst : Instruction} (ty : Ty) (sources : List Value) (temps : List UInt64)

def ask : Trace := ((answer.host observe).answer ⟨0, ⟨0⟩⟩ q w).2

variable {q}

@[simp] theorem context_host : (answer.host observe).context w = w.context := rfl

theorem reads_ask (hq : (q.isAccess || q.isCounter) = true) : w.Reads (ask answer observe q w) := by
  refine ⟨?_, ?_, [.request q w.context], rfl, ?_⟩
  · cases q <;> cases hq <;> rfl
  · cases q <;> cases hq <;> rfl
  · intro e he
    obtain rfl := mem_singleton.mp he
    exact hq

/-- The code leaves after an access exactly if the environment has stopped the guest there. -/
theorem running_ask (hq : q.isAccess = true) :
    (ask answer observe q w).context.get .running &&& Ty.i32.mask = 0 ↔
      (answer q ((Event.request q w.context :: w.events).filterMap observe)).2.running = 0 := by
  have hcontext : (ask answer observe q w).context.running =
      (answer q ((Event.request q w.context :: w.events).filterMap observe)).2.running := by
    cases q <;> cases hq <;> rfl
  rw [← hcontext]
  generalize (ask answer observe q w).context = c
  have hmask : c.get .running &&& Ty.i32.mask = c.running.toUInt64 := by
    exact congrArg UInt32.toUInt64 UInt32.and_neg_one
  rw [hmask]
  exact UInt32.toUInt64_inj (b := 0)

/-- What an operation of a step does to the trace, if it is a request. -/
theorem act_request (hq : inst.request? (argument w.context temps sources 0)
      (argument w.context temps sources 1) (argument w.context temps sources 2) = some q) :
    (act (answer.host observe) inst ty sources temps w).2 = ask answer observe q w := by
  simp only [act, Host.perform, context_host, hq]
  rfl

/-- An instruction that computes a value reads the counters at most. -/
theorem act_computation (hinst : isComputation inst = true) :
    w.Reads (act (answer.host observe) inst ty sources temps w).2 ∧
      w.Accessless (act (answer.host observe) inst ty sources temps w).2 := by
  obtain ⟨new, hact, hnew⟩ : ∃ new,
      (act (answer.host observe) inst ty sources temps w).2 = ⟨w.context, new ++ w.events⟩ ∧
        ∀ e ∈ new, e.isReading = true ∧ e.isAccess = false := by
    cases hq : inst.request? (argument w.context temps sources 0)
        (argument w.context temps sources 1) (argument w.context temps sources 2) with
    | some q =>
      rw [act_request answer observe w ty sources temps hq]
      have hcounter : q.isCounter = true := by
        cases inst <;> cases hq <;> first | rfl | cases hinst
      refine ⟨[.request q w.context], ?_, fun e he => ?_⟩
      · cases q <;> cases hcounter <;> rfl
      · obtain rfl := mem_singleton.mp he
        cases q <;> cases hcounter <;> exact ⟨rfl, rfl⟩
    | none =>
      refine ⟨[], ?_, by simp⟩
      cases inst <;> first | rfl | (cases hq; done) | cases hinst
  rw [hact]
  exact ⟨⟨rfl, rfl, new, rfl, fun e he => (hnew e he).1⟩, new, rfl, fun e he => (hnew e he).2⟩

/-- An update makes no access. -/
theorem act_update (hinst : isUpdate inst = true) :
    w.Accessless (act (answer.host observe) inst ty sources temps w).2 := by
  cases hq : inst.request? (argument w.context temps sources 0)
      (argument w.context temps sources 1) (argument w.context temps sources 2) with
  | some q =>
    rw [act_request answer observe w ty sources temps hq]
    refine ⟨[.request q w.context], rfl, fun e he => ?_⟩
    obtain rfl := mem_singleton.mp he
    cases inst <;> cases hq <;> first | rfl | cases hinst
  | none =>
    cases inst with
    | storeContext field => exact ⟨[.put field _], rfl, by simp [Event.isAccess, Event.request?]⟩
    | _ => first | (cases hq; done) | cases hinst

end Operations

variable {answer : Answers} {observe : Event → Option Event} {pc : UInt64} {w w' : Trace}
  {mode : Mode} {types types' : List Ty} {steps rest : List Step} {progress : Progress Trace}

/-! ### The first part of an instruction -/

section

variable (answer observe pc w)

/-- What the first part of the code at `pc` comes to: it went on without a stop, or it left for `pc`
at the first access that stopped the guest. -/
def Accessed : Progress Trace → Prop
  | .on _ w' => w.Reads w' ∧ w'.stopped answer observe = false
  | .left how w' => how = .exit pc ∧ w.Reads w' ∧ w'.JustStopped answer observe

/-- What the code of the instruction at `pc` comes to: no access stopped the guest, or the code left
for `pc` at the first one that did. -/
def Precise : Progress Trace → Prop
  | .on _ w' => w'.stopped answer observe = false
  | .left how w' => w'.stopped answer observe = false ∨
      how = .exit pc ∧ w.Reads w' ∧ w'.JustStopped answer observe

end

theorem Accessed.of_reads (hreads : w.Reads w') (h : Accessed answer observe pc w' progress) :
    Accessed answer observe pc w progress := by
  cases progress with
  | on temps w'' => exact ⟨hreads.trans h.1, h.2⟩
  | left how w'' => exact ⟨h.1, hreads.trans h.2.1, h.2.2⟩

/-- An access is followed by a check that leaves if the guest was stopped. -/
theorem accessed_haltCheck (hshows : ShowsAccesses observe)
    (hgoing : w.stopped answer observe = false) {q : Request} (hq : q.isAccess = true)
    {temps : List UInt64}
    (hrest : (ask answer observe q w).stopped answer observe = false →
      Accessed answer observe pc (ask answer observe q w)
        (evalSteps (answer.host observe) rest temps (ask answer observe q w))) :
    Accessed answer observe pc w
      (evalSteps (answer.host observe) (.haltCheck pc :: rest) temps (ask answer observe q w)) := by
  obtain ⟨c, hc⟩ := hshows.access q w.context hq
  have hseen : (ask answer observe q w).events.filterMap observe =
      .request q c :: w.events.filterMap observe := by
    change filterMap observe (.request q w.context :: w.events) = _
    rw [filterMap_cons, hc]
  have hreads : w.Reads (ask answer observe q w) := reads_ask answer observe w (by rw [hq]; rfl)
  have hrunning := running_ask answer observe w hq
  rw [filterMap_cons, hc] at hrunning
  have hstops : (Event.request q c).stops answer (w.events.filterMap observe) =
      ((answer q (.request q c :: w.events.filterMap observe)).2.running == 0) := by
    rw [Event.stops, hq, Bool.true_and]
  rw [evalSteps, Step.eval, context_host]
  by_cases hzero : (ask answer observe q w).context.get .running &&& Ty.i32.mask = 0
  · rw [if_pos hzero]
    refine ⟨rfl, hreads, _, _, hseen, ?_, hgoing⟩
    rw [hstops]
    exact beq_iff_eq.mpr (hrunning.mp hzero)
  · rw [if_neg hzero]
    refine .of_reads hreads (hrest ?_)
    rw [Trace.stopped, hseen, IR.stopped, hstops, beq_eq_false_iff_ne.mpr (mt hrunning.mpr hzero)]
    exact hgoing

theorem Proper.accessed (h : Proper mode pc .access types steps types')
    (hshows : ShowsAccesses observe) (hgoing : w.stopped answer observe = false)
    (temps : List UInt64) :
    Accessed answer observe pc w (evalSteps (answer.host observe) steps temps w) := by
  generalize hpart : Part.access = part at h
  induction h generalizing w temps with
  | nil => exact ⟨.refl w, hgoing⟩
  | mention _ _ ih => exact ih hgoing temps hpart
  | @compute _ _ _ _ inst ty sources hinst _ _ _ _ ih =>
    obtain ⟨hnext, hquiet⟩ := act_computation answer observe w ty sources temps hinst
    exact .of_reads hnext (ih (hquiet.stopped_eq hshows ▸ hgoing) _ hpart)
  | @load _ _ _ size ty address _ _ ih =>
    exact accessed_haltCheck hshows hgoing rfl fun hgoing' => ih hgoing' _ hpart
  | @store _ _ _ size address value _ _ _ ih =>
    exact accessed_haltCheck hshows hgoing rfl fun hgoing' => ih hgoing' _ hpart
  | _ => cases hpart

/-! ### The second part -/

def Updated (w : Trace) : Progress Trace → Prop
  | .on _ w' => w.Accessless w'
  | .left _ w' => w.Accessless w'

theorem Updated.of_accessless (hquiet : w.Accessless w') (h : Updated w' progress) :
    Updated w progress := by
  cases progress with
  | on temps w'' => exact Trace.Accessless.trans hquiet h
  | left how w'' => exact Trace.Accessless.trans hquiet h

theorem Proper.updated (h : Proper mode pc .update types steps types') (temps : List UInt64) :
    Updated w (evalSteps (answer.host observe) steps temps w) := by
  generalize hpart : Part.update = part at h
  induction h generalizing w temps with
  | nil => exact .refl w
  | mention _ _ ih => exact ih temps hpart
  | @compute _ _ _ _ inst ty sources hinst _ _ _ _ ih =>
    exact .of_accessless (act_computation answer observe w ty sources temps hinst).2 (ih _ hpart)
  | @assign _ _ _ r v _ _ _ ih =>
    have hquiet : w.Accessless
        ((answer.host observe).put (.register r) (v.eval w.context temps) w) :=
      ⟨[.put _ _], rfl, by simp [Event.isAccess, Event.request?]⟩
    exact .of_accessless hquiet (ih _ hpart)
  | @perform _ _ _ inst sources hinst _ _ _ ih =>
    exact .of_accessless (act_update answer observe w .i64 sources temps hinst) (ih _ hpart)
  | haltCheck resume _ ih =>
    rw [evalSteps, Step.eval]
    split
    next hleft =>
      split at hleft
      · cases hleft
      · cases hleft
        exact ih _ hpart
    next hleft =>
      split at hleft
      · cases hleft
        exact .refl w
      · cases hleft
  | dispatch _ _ _ => exact .refl w
  | branchOn _ _ _ _ _ => exact .refl w
  | _ => cases hpart

/-! ### Instructions -/

theorem evalSteps_append {ω : Type} (host : Host ω) (second : List Step) (temps : List UInt64)
    (w₀ : ω) : evalSteps host (steps ++ second) temps w₀ =
      match evalSteps host steps temps w₀ with
      | .on temps' w₁ => evalSteps host second temps' w₁
      | .left how w₁ => .left how w₁ := by
  induction steps generalizing temps w₀ with
  | nil => rfl
  | cons s steps ih =>
    rw [cons_append, evalSteps, evalSteps]
    cases s.eval host temps w₀ with
    | on temps' w' => exact ih temps' w'
    | left how w' => rfl

theorem Precise.of_reads (hreads : w.Reads w') (h : Precise answer observe pc w' progress) :
    Precise answer observe pc w progress := by
  cases progress with
  | on temps w'' => exact h
  | left how w'' => exact h.imp_right fun hleft => ⟨hleft.1, hreads.trans hleft.2.1, hleft.2.2⟩

theorem Updated.precise (h : Updated w progress) (hshows : ShowsAccesses observe)
    (hgoing : w.stopped answer observe = false) :
    Precise answer observe pc w progress := by
  cases progress with
  | on temps w' => exact (Trace.Accessless.stopped_eq h hshows).trans hgoing
  | left how w' => exact .inl ((Trace.Accessless.stopped_eq h hshows).trans hgoing)

section Going

variable (hshows : ShowsAccesses observe) (hgoing : w.stopped answer observe = false)

include hshows hgoing

theorem ProperBody.precise (h : ProperBody mode pc types steps) (temps : List UInt64) :
    Precise answer observe pc w (evalSteps (answer.host observe) steps temps w) := by
  obtain ⟨first, second, types₁, types₂, rfl, hfirst, hsecond⟩ := h
  have haccessed := hfirst.accessed hshows hgoing temps
  cases hprogress : evalSteps (answer.host observe) first temps w with
  | left how w' =>
    rw [hprogress] at haccessed
    rw [evalSteps_append, hprogress]
    exact .inr haccessed
  | on temps' w' =>
    rw [hprogress] at haccessed
    rw [evalSteps_append, hprogress]
    exact .of_reads haccessed.1 ((hsecond.updated temps').precise hshows haccessed.2)

theorem Code.Proper.precise {c : Code} (h : c.Proper mode pc) :
    Precise answer observe pc w (c.eval (answer.host observe) w) := by
  rw [Code.eval]
  cases hguard : c.guard with
  | none => exact h.body.precise hshows hgoing []
  | some guard =>
    obtain ⟨steps, taken⟩ := guard
    obtain ⟨-, types, hsteps, -⟩ := h.guard steps taken hguard
    have haccessed := hsteps.accessed hshows hgoing []
    dsimp only
    cases hprogress : evalSteps (answer.host observe) steps [] w with
    | left how w' =>
      rw [hprogress] at haccessed
      exact .inr haccessed
    | on temps w' =>
      rw [hprogress] at haccessed
      dsimp only
      split
      · exact .of_reads haccessed.1 (h.body.precise hshows haccessed.2 [])
      · exact haccessed.2

/-! ### Blocks -/

/-- If an access stops the guest, the block is left at the instruction that made it, and the
registers are those after the instructions before it. A block cut after the instruction does the
same. -/
theorem evalCodes_stopped {ops : List Opcode}
    (hops : ∀ op ∈ ops, (code mode op).Proper mode op.address) {limit : UInt64}
    (hstopped : (evalCodes (answer.host observe) limit (ops.map (code mode)) w).2.stopped answer
      observe = true) :
    ∃ before op after w₀, ops = before ++ op :: after ∧
      (∀ limit', evalCodes (answer.host observe) limit' (before.map (code mode)) w =
        (.dispatch limit', w₀)) ∧
      (∀ limit', evalCodes (answer.host observe) limit' ((before ++ [op]).map (code mode)) w =
        evalCodes (answer.host observe) limit (ops.map (code mode)) w) ∧
      (evalCodes (answer.host observe) limit (ops.map (code mode)) w).1 = .exit op.address ∧
      w₀.Reads (evalCodes (answer.host observe) limit (ops.map (code mode)) w).2 ∧
      (evalCodes (answer.host observe) limit (ops.map (code mode)) w).2.JustStopped answer
        observe := by
  induction ops generalizing w with
  | nil =>
    rw [show w.stopped answer observe = true from hstopped] at hgoing
    cases hgoing
  | cons op ops ih =>
    have hcode := (hops op (.head _)).precise hshows hgoing
    simp only [map_cons, evalCodes] at hstopped ⊢
    cases hprogress : (code mode op).eval (answer.host observe) w with
    | left how w' =>
      rw [hprogress] at hcode hstopped
      have hleft := hcode.resolve_left (by rw [hstopped]; exact Bool.noConfusion)
      refine ⟨[], op, ops, w, rfl, fun _ => rfl, fun limit' => ?_, hleft⟩
      simp [evalCodes, hprogress]
    | on temps w' =>
      rw [hprogress] at hcode hstopped
      obtain ⟨before, op', after, w₀, rfl, hbefore, hcut, hleft⟩ :=
        ih hcode (fun x hx => hops x (.tail _ hx)) hstopped
      refine ⟨op :: before, op', after, w₀, rfl, fun limit' => ?_, fun limit' => ?_, hleft⟩
      · simp only [map_cons, evalCodes, hprogress]
        exact hbefore limit'
      · simp only [cons_append, map_cons, evalCodes, hprogress]
        exact hcut limit'

end Going

end Lift

end Dynarec
