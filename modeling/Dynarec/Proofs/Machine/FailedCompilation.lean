import Dynarec.Machine.Bridge
import Dynarec.Proofs.Machine.CodeOwnership

/-!
# Failed compilations

A compilation fails when a word cannot be fetched, when the code cannot be encoded or when the arena
has no room for it. By then pages are tracked, the table may have new levels and a call counter is
taken. Nothing else has happened: code is counted, installed and freed only after it was placed.
-/

namespace Dynarec

open Code (AddressTable Arena Cache Compiled)
open Guest (Block)
open IR (Tier)

/-- Places in the table for some addresses publish nothing. -/
theorem Code.AddressTable.Represents.lookup_places {t : AddressTable} {map : UInt64 → Option UInt64}
    (h : t.Represents map) (pcs : List UInt64) (a : UInt64) :
    (pcs.foldl (fun table pc => (table.ensure pc).2) t).lookup a = t.lookup a := by
  induction pcs generalizing t with
  | nil => rfl
  | cons pc pcs ih =>
    exact (ih (h.apply (.ensure pc))).trans (h.lookup_apply_of_ne (.ensure pc) rfl)

theorem Recompiler.install_ne_stale {r : Recompiler} {expected : UInt64}
    (hepoch : r.epoch = expected) (c : Compiled) (force : Bool) :
    (r.install c expected force).1 ≠ .stale := by
  unfold install Cache.install
  rw [hepoch, bne_self_eq_false, Bool.and_false]
  cases r.cache.get? c.guestAddress with
  | none => exact nofun
  | some old => exact nofun

theorem Recompiler.upgrade_of_get? {r : Recompiler} {expected : UInt64} {current : Compiled}
    (hepoch : r.epoch = expected) (hget : r.cache.get? current.guestAddress = some current)
    (better : Compiled) : (r.upgrade current better expected).1 = true := by
  unfold upgrade Cache.replace
  rw [if_neg (not_not_intro hepoch), hget]
  simp

namespace Machine

variable {σ : Type} {sup : Supervisor σ} {m m' : Machine σ} {a : UInt64}

/-! ### Reachable machines -/

/-- The machines that operations on the code lead to. Running code does them one after the other,
and counts calls. -/
inductive Reachable (sup : Supervisor σ) : Machine σ → Prop
  | start {config : Config} {memory : Guest.Memory} {clock : Clock} {state : σ} {m : Machine σ}
      (hfits : (Arena.ofSize config.arenaSize).capacity ≤ UInt64.size)
      (h : ofConfig config memory clock state = .ok m) : Reachable sup m
  | operate {m : Machine σ} (h : Reachable sup m) (operation : CodeOperation σ) :
      Reachable sup (m.operate sup operation)
  | countCall {m : Machine σ} (h : Reachable sup m) (counter guest threshold : UInt64) :
      Reachable sup (m.countCall counter guest threshold)

theorem Reachable.accounted (h : Reachable sup m) :
    ∃ stubs fill, m.recompiler.Accounted stubs fill [] := by
  induction h with
  | start hfits h =>
    obtain ⟨stubs, fill, -, hstart⟩ := accounted_ofConfig hfits (ofConfig_spec h).2
    exact ⟨stubs, fill, hstart⟩
  | operate _ operation ih =>
    obtain ⟨stubs, fill, h⟩ := ih
    exact ⟨stubs, fill, (operate_spec sup h operation).1⟩
  | countCall _ counter guest threshold ih =>
    obtain ⟨stubs, fill, h⟩ := ih
    refine ⟨stubs, fill, ?_⟩
    unfold Machine.countCall
    dsimp only
    split <;> exact ⟨h.uses, h.fits, h.stub, h.agrees, h.placed⟩

/-! ### One compilation -/

/-- What a compilation of the block at an address leaves even if it fails: its pages are tracked,
the table has another form, and there is another call counter. -/
def prepared (m : Machine σ) (address : UInt64) (state : σ) (table : AddressTable)
    (calls : Array UInt64) : Machine σ :=
  { m.trackCode address with
    state
    recompiler := { m.recompiler with cache := { m.recompiler.cache with table }, calls } }

/-- Code is fetched without any change to the machine itself. -/
theorem exists_state_decode (hq : sup.Quiet) (m : Machine σ) (start : UInt64) (mode : Guest.Mode)
    (limit : Nat) :
    ∃ state, (Block.decode (codeSource sup start) mode start limit m).2 = { m with state } := by
  refine Block.decode_keeps (P := fun m' => ∃ state, m' = { m with state }) ?_ mode limit start
    ⟨m.state, rfl⟩
  rintro a _ ⟨state, rfl⟩
  dsimp only [codeSource]
  unfold read
  split
  · exact ⟨state, rfl⟩
  · dsimp only
    rw [hq]
    exact ⟨_, rfl⟩

/-- How placing the code of a block ends: without code, or with code that is in the arena and is
counted. -/
theorem place_cases {fill : UInt64} (h : m.recompiler.cache.Agrees fill) (block : Block)
    (tier : Tier) :
    ∃ table : AddressTable, (∀ b, table.lookup b = m.recompiler.table.lookup b) ∧
      let r := { m.recompiler.newSerial.2 with cache := { m.recompiler.cache with table } }
      (∃ e, m.place block tier = (.error e, { m with recompiler := r })) ∨
        ∃ c arena counters, m.place block tier =
          (.ok c, { m with recompiler := { r with arena, counters } }) := by
  unfold place
  dsimp only
  generalize hcompilation : Compilation.ofBlock block m.config.mode _ _ = compilation
  obtain ⟨pcs, htable⟩ := exists_table_ofBlock block m.config.mode _ _
  rw [hcompilation] at htable
  refine ⟨compilation.generated.table, fun b => ?_, ?_⟩
  · rw [htable]
    exact h.published.lookup_places pcs b
  · split
    next e _ => exact .inl ⟨_, rfl⟩
    next code _ =>
      split
      next => exact .inl ⟨_, rfl⟩
      next range arena _ => exact .inr ⟨_, arena, _, rfl⟩

theorem compile_cases (hq : sup.Quiet) {fill : UInt64} (h : m.recompiler.cache.Agrees fill)
    (a : UInt64) (tier : Tier) :
    ∃ state table calls, (∀ b, table.lookup b = m.recompiler.table.lookup b) ∧
      m.recompiler.calls.toList <+: calls.toList ∧
      let m' := m.prepared a state table calls
      ((∃ e, m.compile sup a tier = (.error e, m')) ∨
        ∃ c arena counters, m.compile sup a tier =
          (.ok c, { m' with recompiler := { m'.recompiler with arena, counters } })) := by
  obtain ⟨state, hstate⟩ := exists_state_decode hq (m.trackCode a) a (m.trackCode a).config.mode
    (m.trackCode a).config.maxBlock
  unfold compile
  dsimp only
  generalize Block.decode (codeSource sup a) (m.trackCode a).config.mode a
    (m.trackCode a).config.maxBlock (m.trackCode a) = decoded at hstate ⊢
  obtain ⟨_ | block, _⟩ := decoded
  · subst hstate
    exact ⟨state, m.recompiler.table, m.recompiler.calls, fun _ => rfl, List.prefix_rfl,
      .inl ⟨_, rfl⟩⟩
  · subst hstate
    obtain ⟨table, hlookup, hplace⟩ := place_cases (m := { m.trackCode a with state }) h block tier
    refine ⟨state, table, m.recompiler.newSerial.2.calls, hlookup, ?_, hplace⟩
    rw [Recompiler.newSerial, Array.toList_push]
    exact List.prefix_append _ _

/-! ### Requests -/

/-- Nothing has happened to the code of a machine: a request for the code of an address has tracked
pages and made levels of the table, which publish what they did, and a call counter that no code
uses. -/
structure Unaffected (address : UInt64) (m m' : Machine σ) : Prop where
  entries : m'.recompiler.cache.entries = m.recompiler.cache.entries
  lookup : ∀ b, m'.recompiler.table.lookup b = m.recompiler.table.lookup b
  deferred : m'.recompiler.deferred = m.recompiler.deferred
  queue : m'.recompiler.queue = m.recompiler.queue
  epoch : m'.recompiler.epoch = m.recompiler.epoch
  arena : m'.recompiler.arena = m.recompiler.arena
  stats : m'.recompiler.stats = m.recompiler.stats
  calls : m.recompiler.calls.toList <+: m'.recompiler.calls.toList
  rest : m' = m.prepared address m'.state m'.recompiler.table m'.recompiler.calls

/-- How compiling the code of an address again ends: with a failure, with nothing, because there is
no fast code, or with better code in its place. -/
def Renews (address : UInt64) (m : Machine σ) : Except RunError Bool × Machine σ → Prop
  | (.error _, m') => Unaffected address m m'
  | (.ok false, m') => m' = m
  | (.ok true, _) => True

section

variable (hq : sup.Quiet) {fill : UInt64} (h : m.recompiler.cache.Agrees fill)

include hq h

/-- No request is repeated while nothing is removed, so it fails with its first compilation. -/
theorem unaffected_compileUntil {tier : Tier} {retries : Nat} {e : RunError}
    (herror : compileUntil sup a tier retries m = (.error e, m')) : Unaffected a m m' := by
  obtain ⟨state, table, calls, hlookup, hcalls, hcompile⟩ := compile_cases hq h a tier
  unfold compileUntil at herror
  rcases hcompile with ⟨_, hcompile⟩ | ⟨c, arena, counters, hcompile⟩
  · rw [hcompile] at herror
    cases herror
    exact ⟨rfl, hlookup, rfl, rfl, rfl, rfl, rfl, hcalls, rfl⟩
  · rw [hcompile] at herror
    dsimp only at herror
    generalize hr :
      { (m.prepared a state table calls).recompiler with arena, counters } = r at herror
    have hepoch : r.epoch = m.recompiler.epoch := by
      rw [← hr]
      rfl
    have hstale := Recompiler.install_ne_stale hepoch c (retries == 0)
    generalize r.install c m.recompiler.epoch (retries == 0) = installed at herror hstale
    obtain ⟨_ | _ | _, _⟩ := installed
    · cases retries <;> cases herror
    · cases retries <;> cases herror
    · exact absurd rfl hstale

theorem unaffected_obtain {e : RunError} (herror : m.obtain sup a = (.error e, m')) :
    Unaffected a m m' := by
  unfold obtain at herror
  split at herror
  · cases herror
  · exact unaffected_compileUntil hq h herror

theorem renews_rejit (hplaced : ∀ e ∈ m.recompiler.cache.entries, e.2.guestAddress = e.1)
    (a : UInt64) : Renews a m (m.rejit sup a) := by
  unfold rejit
  split
  next => exact rfl
  next current hget =>
    split
    next => exact rfl
    next =>
      obtain ⟨state, table, calls, hlookup, hcalls, hcompile⟩ := compile_cases hq h a .optimized
      rcases hcompile with ⟨e, hcompile⟩ | ⟨c, arena, counters, hcompile⟩
      · rw [hcompile]
        exact ⟨rfl, hlookup, rfl, rfl, rfl, rfl, rfl, hcalls, rfl⟩
      · -- the code is still where it was, and nothing was removed
        have haddress : current.guestAddress = a := hplaced _ (Cache.mem_entries_of_get? hget)
        have hthere : (m.prepared a state table calls).recompiler.cache.get? current.guestAddress =
            some current := by
          rw [haddress]
          exact hget
        rw [hcompile]
        dsimp only
        rw [Recompiler.upgrade_of_get?]
        · trivial
        · rfl
        · exact hthere

end

/-- Whatever was done with the code of a machine before: a request for code that fails, or one to
compile it again, leaves the cache, what the table publishes, the code that waits to be freed, the
queue, the epoch, the arena and the statistics as they were. Not compiling again changes nothing at
all. -/
theorem failed_request_unaffected (sup : Supervisor σ) (hq : sup.Quiet) (m : Machine σ)
    (hm : Reachable sup m) (address : UInt64) :
    (∀ e m', m.obtain sup address = (.error e, m') → Unaffected address m m') ∧
      (∀ e m', m.resolve sup address = (.error e, m') → Unaffected address m m') ∧
      (∀ e m', m.rejit sup address = (.error e, m') → Unaffected address m m') ∧
      ∀ m', m.rejit sup address = (.ok false, m') → m' = m := by
  obtain ⟨stubs, fill, haccounted⟩ := hm.accounted
  have hagrees := haccounted.agrees
  have hrejit := renews_rejit hq hagrees haccounted.placed address
  refine ⟨fun e m' h => unaffected_obtain hq hagrees h, fun e m' h => ?_, fun e m' h => ?_,
    fun m' h => ?_⟩
  · unfold resolve at h
    split at h
    · cases h
    · exact unaffected_obtain hq hagrees h
  · rw [h] at hrejit
    exact hrejit
  · rw [h] at hrejit
    exact hrejit

/-- A branch to itself is compiled, and nothing is mapped where code is asked for then. -/
theorem failed_request_unaffected_unmapped :
    ∃ m e m', Reachable idle m ∧ m.recompiler.cache.contains 0x1000 = true ∧
      m.obtain idle 0x2000 = (.error e, m') ∧ Unaffected 0x2000 m m' := by
  have hruns : (ofConfig (.ofMode .a64) (Guest.Memory.empty.map 0x1000 #[0, 0, 0, 0x14] true)
      ⟨0, 1, 1⟩ ()).toOption.map (fun m =>
        ((m.operate idle (.obtain 0x1000)).recompiler.cache.contains 0x1000,
          ((m.operate idle (.obtain 0x1000)).obtain idle 0x2000).1.isOk)) = some (true, false) := by
    decide +kernel
  obtain ⟨m₀, hm₀⟩ := exists_ofConfig_a64
    (Guest.Memory.empty.map 0x1000 #[0, 0, 0, 0x14] true) ⟨0, 1, 1⟩ ()
  rw [hm₀] at hruns
  obtain ⟨hcached, hfails⟩ := Prod.mk.inj (Option.some.inj hruns)
  have hm : Reachable idle (m₀.operate idle (.obtain 0x1000)) :=
    .operate (.start (by decide) hm₀) _
  generalize m₀.operate idle (.obtain 0x1000) = m at hcached hfails hm
  cases hresult : m.obtain idle 0x2000 with
  | mk result m' =>
    rw [hresult] at hfails
    cases result with
    | ok c => cases hfails
    | error e =>
      exact ⟨m, e, m', hm, hcached, hresult,
        (failed_request_unaffected idle (fun _ _ => rfl) m hm 0x2000).1 e m' hresult⟩

end Machine

end Dynarec
