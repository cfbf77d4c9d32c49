import Dynarec.Machine.Execute
import Mathlib.Data.List.TakeWhile

/-!
# Interrupt callbacks

A stop sets the flag that also carries the interrupt requests, so that the next dispatch looks at
the host. A run that ends elsewhere leaves the flag set, and the next run begins with it. An
observer of one thread counts what happens to it, in any order and through any number of runs: the
interrupts served are paid for by the requests and by the runs that begin with the flag of a stop.
-/

namespace Dynarec

structure Tally where
  requests : Nat := 0
  stops : Nat := 0
  interrupts : Nat := 0
  /-- Runs that began with a flag set by nothing but stops. -/
  leftovers : Nat := 0
  /-- Whether the flag is set, and no interrupt was requested since it was clear. -/
  byStop : Bool := false
deriving DecidableEq

namespace Tally

def request (t : Tally) : Tally := { t with requests := t.requests + 1, byStop := false }

def stop (t : Tally) (pending : Bool) : Tally :=
  { t with stops := t.stops + 1, byStop := t.byStop || !pending }

def interrupt (t : Tally) : Tally := { t with interrupts := t.interrupts + 1 }

def beginRun (t : Tally) : Tally :=
  { t with leftovers := t.leftovers + t.byStop.toNat, byStop := false }

def dispatch (t : Tally) (pending : Bool) : Tally := { t with byStop := t.byStop && pending }

end Tally

/-- What happens to a thread. A callback that stops the thread or requests an interrupt is followed
by that as an event of its own. -/
inductive ThreadEvent where
  | beginRun (address : UInt64)
  | endRun
  | dispatch (pc : UInt64)
  | fail (e : RunError)
  | requestInterrupt
  | stop
  /-- Anything else: code of the guest, calls from it, and what the host does meanwhile. -/
  | work (change : Machine Tally → Machine Tally)

def ThreadEvent.isBeginRun : ThreadEvent → Bool
  | .beginRun _ => true
  | _ => false

namespace Machine

def recorder : Supervisor Tally :=
  { Supervisor.ofCalls fun _ _ m => m with
    interrupt := fun m => { m with state := m.state.interrupt } }

variable (m : Machine Tally)

def count (g : Tally → Tally) : Machine Tally := { m with state := g m.state }

def fresh : Machine Tally := m.newThread.count fun _ => {}

def pending : Bool := m.thread.context.interrupt != 0

def observe : ThreadEvent → Machine Tally
  | .beginRun address => (m.beginRun address).count Tally.beginRun
  | .endRun => m.endRun
  | .dispatch pc =>
    let m := (m.dispatchTo recorder pc).2
    m.count (·.dispatch m.pending)
  | .fail e => m.fail e
  | .requestInterrupt => (m.mapThread Thread.requestInterrupt).count Tally.request
  | .stop => (m.mapThread Thread.stop).count (·.stop m.pending)
  | .work change =>
    let { running, interrupt, .. } := m.thread.context
    ((change m).mapContext ({ · with running, interrupt })).count fun _ => m.state

def observeAll (events : List ThreadEvent) : Machine Tally := events.foldl observe m

/-! ### One event -/

/-- A dispatch clears the flag, and serves an interrupt if the thread is running. -/
theorem observe_dispatch (pc : UInt64) :
    (m.observe (.dispatch pc)).pending = false ∧
      (m.observe (.dispatch pc)).thread.isRunning = m.thread.isRunning ∧
      (m.observe (.dispatch pc)).state =
        (if m.pending && m.thread.isRunning then m.state.interrupt else m.state).dispatch
          false := by
  by_cases hflag : m.thread.context.interrupt = 0
  · -- without the flag the host is looked at only if the counter ran out, and finds nothing
    by_cases hcounter : m.thread.context.syncCounter ≤ 1 <;>
      simp [observe, dispatchTo, Context.dispatch, Context.leave, checkSynchronization, count,
        pending, mapContext, mapThread, Thread.mapContext, Thread.resetSync, Thread.takeInterrupt,
        Thread.isRunning, hflag, hcounter]
  · by_cases hrunning : m.thread.context.running = 0 <;>
      simp [observe, dispatchTo, Context.dispatch, Context.leave, checkSynchronization, count,
        pending, recorder, mapContext, mapThread, Thread.mapContext, Thread.resetSync,
        Thread.takeInterrupt, Thread.isRunning, hflag, hrunning]

/-- Interrupts that are owed: the flag will be served, now or in the next run. A flag that stops
have set is not served by the run they end. -/
def owed : Nat := (m.pending && (m.thread.isRunning || !m.state.byStop)).toNat

/-- The interrupts, served and owed, are paid for by requests and by flags left over, and these by
stops. -/
structure Balanced : Prop where
  interrupts : m.state.interrupts + m.owed ≤ m.state.requests + m.state.leftovers
  leftovers : m.state.leftovers + m.state.byStop.toNat ≤ m.state.stops

variable {m}

theorem balanced_fresh : m.fresh.Balanced := ⟨Nat.le_refl 0, Nat.le_refl 0⟩

/-- An event that clears what is owed or keeps it, and counts nothing, keeps the balance. -/
theorem Balanced.of_owed_le {m' : Machine Tally} (h : m.Balanced) (hstate : m'.state = m.state)
    (howed : m'.owed ≤ m.owed) : m'.Balanced := by
  have hinterrupts := h.interrupts
  constructor
  · rw [hstate]
    omega
  · rw [hstate]
    exact h.leftovers

theorem owed_markStopped_le (m : Machine Tally) :
    (m.mapThread Thread.markStopped).owed ≤ m.owed := by
  simp only [owed, pending, mapThread, Thread.markStopped, Thread.mapContext, Thread.isRunning]
  cases m.thread.context.interrupt != 0 <;> cases m.state.byStop <;> simp

theorem owed_beginRun_le (m : Machine Tally) (address : UInt64) :
    (m.observe (.beginRun address)).owed ≤ m.owed + m.state.byStop.toNat := by
  have hflag : (m.observe (.beginRun address)).pending = m.pending := rfl
  rw [owed, owed, hflag]
  cases m.pending <;> cases m.state.byStop <;>
    simp [Machine.observe, count, Tally.beginRun]

/-- A stop takes an interrupt away that is owed only by the flag it finds, and owes none itself. -/
theorem owed_stop_le (m : Machine Tally) : (m.observe .stop).owed ≤ m.owed := by
  simp only [owed, Machine.observe, count, Tally.stop, pending, mapThread, Thread.stop,
    Thread.mapContext, Thread.isRunning]
  cases m.thread.context.interrupt != 0 <;> cases m.state.byStop <;> simp

theorem Balanced.observe (h : m.Balanced) (event : ThreadEvent) : (m.observe event).Balanced := by
  have hinterrupts := h.interrupts
  have hleftovers := h.leftovers
  cases event with
  | endRun => exact h.of_owed_le rfl (owed_markStopped_le m)
  | fail e => exact h.of_owed_le rfl (owed_markStopped_le m)
  | work change => exact h.of_owed_le rfl le_rfl
  | dispatch pc =>
    -- the flag is gone afterwards, so that nothing is owed
    obtain ⟨hpending, -, hstate⟩ := observe_dispatch m pc
    have howed : (m.observe (.dispatch pc)).owed = 0 := by simp [owed, hpending]
    have hserved : (m.pending && m.thread.isRunning).toNat ≤ m.owed := by
      unfold owed
      cases m.pending <;> cases m.thread.isRunning <;> simp
    constructor <;> rw [hstate]
    · cases hcase : m.pending && m.thread.isRunning
      · simp only [Tally.dispatch, Bool.false_eq_true, if_false]
        omega
      · simp only [hcase, Bool.toNat_true] at hserved
        simp only [Tally.dispatch, Tally.interrupt, if_true]
        omega
    · cases m.pending && m.thread.isRunning <;>
        simp only [Tally.dispatch, Tally.interrupt, Bool.false_eq_true, if_false, if_true,
          Bool.and_false, Bool.toNat_false] <;>
        omega
  | beginRun address =>
    have howed := owed_beginRun_le m address
    constructor
    · show m.state.interrupts + _ ≤ m.state.requests + (m.state.leftovers + m.state.byStop.toNat)
      omega
    · exact hleftovers
  | requestInterrupt =>
    have howed : (m.observe .requestInterrupt).owed ≤ 1 := Bool.toNat_le _
    constructor
    · show m.state.interrupts + _ ≤ m.state.requests + 1 + m.state.leftovers
      omega
    · show m.state.leftovers + 0 ≤ m.state.stops
      omega
  | stop =>
    have howed := owed_stop_le m
    constructor
    · show m.state.interrupts + _ ≤ m.state.requests + m.state.leftovers
      omega
    · show m.state.leftovers + _ ≤ m.state.stops + 1
      have hby : (m.observe .stop).state.byStop.toNat ≤ 1 := Bool.toNat_le _
      omega

/-! ### Any number of events -/

theorem Balanced.observeAll (h : m.Balanced) (events : List ThreadEvent) :
    (m.observeAll events).Balanced := by
  exact List.foldlRecOn events _ h fun _ hm event _ => hm.observe event

/-- A thread that is not running stays so, and is served no interrupt, until the next run. -/
theorem observe_stopped (hstopped : m.thread.isRunning = false) {event : ThreadEvent}
    (hevent : event.isBeginRun = false) :
    (m.observe event).thread.isRunning = false ∧
      (m.observe event).state.interrupts = m.state.interrupts := by
  cases event with
  | beginRun address => cases hevent
  | dispatch pc =>
    obtain ⟨-, hrunning, hstate⟩ := observe_dispatch m pc
    simp [hrunning, hstate, hstopped, Tally.dispatch]
  | requestInterrupt => exact ⟨hstopped, rfl⟩
  | work change => exact ⟨hstopped, rfl⟩
  | endRun => exact ⟨rfl, rfl⟩
  | fail e => exact ⟨rfl, rfl⟩
  | stop => exact ⟨rfl, rfl⟩

theorem observeAll_stopped (hstopped : m.thread.isRunning = false) {events : List ThreadEvent}
    (hevents : ∀ event ∈ events, event.isBeginRun = false) :
    (m.observeAll events).state.interrupts = m.state.interrupts := by
  induction events generalizing m with
  | nil => rfl
  | cons event events ih =>
    rw [List.forall_mem_cons] at hevents
    obtain ⟨hnext, hsame⟩ := observe_stopped hstopped hevents.1
    exact (ih hnext hevents.2).trans hsame

/-- Interrupts are served at most as often as they are requested, but for one more in each run that
begins with the flag of a stop. A stop is never followed by an interrupt in the run that it ends. -/
theorem interrupts_le_requests_add_leftovers (m : Machine Tally) (events : List ThreadEvent) :
    let seen := m.fresh.observeAll events
    seen.state.interrupts ≤ seen.state.requests + seen.state.leftovers ∧
      seen.state.leftovers ≤ seen.state.stops ∧
      ∀ later : List ThreadEvent,
        ((seen.observe .stop).observeAll (later.takeWhile (!·.isBeginRun))).state.interrupts =
          seen.state.interrupts := by
  intro seen
  have hbalanced : seen.Balanced := balanced_fresh.observeAll events
  refine ⟨Nat.le_of_add_right_le hbalanced.interrupts, Nat.le_of_add_right_le hbalanced.leftovers,
    fun later => ?_⟩
  refine (observeAll_stopped rfl fun event hevent => ?_).trans rfl
  simpa using List.mem_takeWhile_imp hevent

/-- A thread stopped in one run is interrupted in the next, without a request. -/
theorem stop_interrupts_next_run :
    ((Recompiler.ofConfig (.ofMode .a64)).toOption.map fun recompiler =>
      let m : Machine Tally :=
        { memory := .empty, recompiler, thread := .ofMode .a64 1024, clock := ⟨0, 1, 1⟩,
          fault := none, state := {} }
      (m.fresh.observeAll
        [.beginRun 0x1000, .stop, .endRun, .beginRun 0x1004, .dispatch 0x1008]).state) =
    some { requests := 0, stops := 1, interrupts := 1, leftovers := 1 } := by
  decide +kernel

end Machine

end Dynarec
