import Dynarec.Proofs.Code.ArenaRanges
import Dynarec.Proofs.Code.CacheTable
import Dynarec.Proofs.Host.Lowering
import Dynarec.Proofs.Machine.FreshCode

/-!
# Ownership of code memory

Every range of the arena that is in use belongs to a stub, to code in the cache, to code that was
removed and waits to be freed, or to a compilation that is not installed yet. Operations hand ranges
from one owner to the next. Only removed code is freed, and only when no thread can be running it.
-/

open scoped List

namespace Dynarec

open List Recompiler

namespace Code

namespace Shard

variable {s : Shard}

/-- The entry that an insertion replaces comes out, and the new one goes in. -/
theorem Ascending.perm_insert (h : s.Ascending) (a : UInt64) (x : Compiled) :
    (((s.lookup a).map (a, ·)).toList ++ s.insert a x).Perm ((a, x) :: s) := by
  induction s with
  | nil => simp [Shard.insert]
  | cons e rest ih =>
    obtain ⟨hfirst, hrest⟩ := pairwise_cons.mp h
    rw [lookup_cons_eq_ite, Shard.insert]
    split
    next heq =>
      subst heq
      rw [if_neg (UInt64.lt_irrefl _)]
      exact List.Perm.swap _ _ _
    next hne =>
      split
      next hlt =>
        have hnone : rest.lookup a = none := by
          by_contra hsome
          obtain ⟨y, hy⟩ := Option.ne_none_iff_exists'.mp hsome
          have hbefore := hfirst _ (mem_of_lookup hy)
          exact UInt64.lt_asymm hlt hbefore
        rw [hnone]
        exact List.Perm.refl _
      next =>
        calc _ ~ e :: (((rest.lookup a).map (a, ·)).toList ++ Shard.insert a x rest) :=
              perm_middle
          _ ~ e :: (a, x) :: rest := (ih hrest).cons e
          _ ~ (a, x) :: e :: rest := List.Perm.swap _ _ _
end Shard

namespace Cache

variable {c : Cache}

/-- The block that had the address comes out, and the new one goes in. -/
theorem Filed.perm_put (h : c.Filed) (a : UInt64) (x : Compiled) :
    (((c.get? a).map (a, ·)).toList ++ (c.put a x).entries).Perm ((a, x) :: c.entries) := by
  have hindex : (shardIndex a).val < c.shards.toList.length := by simp
  have hentries : c.entries = (c.shards.toList.take (shardIndex a)).flatten ++
      (c.shards[shardIndex a] ++ (c.shards.toList.drop (shardIndex a + 1)).flatten) := by
    conv_lhs => rw [entries, ← take_append_drop (shardIndex a) c.shards.toList,
      drop_eq_getElem_cons hindex]
    simp
  have hput : (c.put a x).entries = (c.shards.toList.take (shardIndex a)).flatten ++
      (Shard.insert a x c.shards[shardIndex a] ++
        (c.shards.toList.drop (shardIndex a + 1)).flatten) := by
    rw [entries, Cache.put, Vector.toList_set, set_eq_take_append_cons_drop]
    simp
  have hinsert := (h.ascending (shardIndex a)).perm_insert a x
  rw [hentries, hput, get?, shard]
  generalize (c.shards.toList.take (shardIndex a)).flatten = before
  generalize (c.shards.toList.drop (shardIndex a + 1)).flatten = after
  generalize ((lookup a c.shards[shardIndex a]).map (a, ·)).toList = old at hinsert ⊢
  calc old ++ (before ++ (Shard.insert a x c.shards[shardIndex a] ++ after))
      ~ before ++ ((old ++ Shard.insert a x c.shards[shardIndex a]) ++ after) := by
        rw [← append_assoc, ← append_assoc, ← append_assoc, ← append_assoc]
        exact (perm_append_comm.append_right _).append_right _
    _ ~ before ++ (((a, x) :: c.shards[shardIndex a]) ++ after) :=
        (hinsert.append_right after).append_left before
    _ ~ (a, x) :: (before ++ (c.shards[shardIndex a] ++ after)) := perm_middle

/-- Blocks that are removed and those that stay are all blocks. -/
theorem perm_removeRange (c : Cache) (address size : UInt64) :
    (c.removeRange address size).2.entries.map (·.2) ++ (c.removeRange address size).1 ~
      c.entries.map (·.2) := by
  rw [entries_removeRange]
  refine perm_append_comm.trans ?_
  rw [removeRange, ← map_append]
  exact (filter_append_perm _ _).map _

end Cache

end Code

open Code (AddressTable Arena Cache Compiled InstallOutcome Range)
open Guest (Block)
open IR (Tier)

namespace Recompiler

variable {stubs : List Range} {fill : UInt64} {flight flight' flight'' : List Compiled}
  {c : Compiled} {r r' r'' : Recompiler}

def held (r : Recompiler) : List Compiled := r.cache.entries.map (·.2) ++ r.deferred

section

variable (stubs fill flight r r')

/-- The ranges in use are those of the stubs, of the compilations in flight and of the code that is
held. Code never stands where the fill stands, which is a stub, so the table publishes the cache. -/
structure Accounted : Prop where
  uses : ∃ live, r.arena.Uses live ∧ live ~ stubs ++ (flight ++ r.held).map Compiled.range
  fits : r.arena.capacity ≤ UInt64.size
  stub : ∃ stub ∈ stubs, Arena.address stub = fill
  agrees : r.cache.Agrees fill
  placed : ∀ e ∈ r.cache.entries, e.2.guestAddress = e.1

/-- What an operation does to the ranges: it hands them on, and frees none that is held while some
thread may be running code. -/
structure Moves : Prop where
  accounted : r'.Accounted stubs fill flight
  held : r.dispatching ≠ 0 → ∀ c ∈ r.held, c ∈ r'.held
  dispatching : r'.dispatching = r.dispatching

end

theorem Moves.trans (h : Moves stubs fill flight r r') (h' : Moves stubs fill flight' r' r'') :
    Moves stubs fill flight' r r'' where
  accounted := h'.accounted
  held hd c hc := h'.held (h.dispatching ▸ hd) c (h.held hd c hc)
  dispatching := h'.dispatching.trans h.dispatching

namespace Accounted

section

variable (h : r.Accounted stubs fill flight)

include h

theorem moves_refl : Moves stubs fill flight r r :=
  ⟨h, fun _ _ hc => hc, rfl⟩

/-- Code that was in flight or held still is one or the other. -/
theorem handOn (harena : r'.arena = r.arena) (hperm : flight' ++ r'.held ~ flight ++ r.held)
    (hagrees : r'.cache.Agrees fill)
    (hplaced : ∀ e ∈ r'.cache.entries, e.2.guestAddress = e.1) :
    r'.Accounted stubs fill flight' where
  uses := by
    obtain ⟨live, huses, hlive⟩ := h.uses
    exact ⟨live, harena ▸ huses, hlive.trans ((hperm.symm.map _).append_left _)⟩
  fits := harena ▸ h.fits
  stub := h.stub
  agrees := hagrees
  placed := hplaced

/-- A change of nothing but the table, in which places are made. -/
theorem moves_of_places (harena : r'.arena = r.arena) (hdeferred : r'.deferred = r.deferred)
    (hdispatching : r'.dispatching = r.dispatching)
    (hcache : ∃ pcs : List UInt64, r'.cache =
      { r.cache with table := pcs.foldl (fun table pc => (table.ensure pc).2) r.cache.table }) :
    Moves stubs fill flight r r' := by
  obtain ⟨pcs, hcache⟩ := hcache
  have hentries : r'.cache.entries = r.cache.entries := by
    rw [hcache]
    rfl
  have hheld : r'.held = r.held := by rw [held, hentries, hdeferred, held]
  refine ⟨h.handOn harena (by rw [hheld]) ?_ ?_, fun _ c hc => hheld ▸ hc, hdispatching⟩
  · rw [hcache]
    refine foldlRecOn pcs _ (motive := fun table => { r.cache with table }.Agrees fill) h.agrees ?_
    exact fun _ hc pc _ => hc.withTable (.ensure pc) fun _ => rfl
  · rw [hentries]
    exact h.placed

omit h in
/-- Code in flight does not stand where the fill stands. -/
theorem host_ne_fill (h : r.Accounted stubs fill (c :: flight)) : c.host ≠ fill := by
  obtain ⟨live, huses, hlive⟩ := h.uses
  obtain ⟨stub, hstub, rfl⟩ := h.stub
  obtain ⟨before, after, rfl⟩ := append_of_mem hstub
  have hperm : live ~
      c.range :: stub :: (before ++ after ++ (flight ++ r.held).map Compiled.range) := by
    refine hlive.trans (perm_middle.trans (.cons _ ?_))
    rw [append_assoc, append_assoc]
    exact perm_middle
  have hlt : ∀ s ∈ live, s.offset < UInt64.size :=
    fun s hs => (huses.offset_lt hs).trans_le h.fits
  refine Arena.address_ne (hlt _ ?_) (hlt _ ?_) (huses.offset_ne hperm)
  · exact hperm.mem_iff.mpr (.head _)
  · exact hperm.mem_iff.mpr (.tail _ (.head _))

/-! ### Removing code -/

theorem moves_invalidate (address size : UInt64) :
    Moves stubs fill flight r (r.invalidate address size).2 := by
  have hperm : (r.invalidate address size).2.held ~ r.held := by
    refine (perm_append_comm.append_left _).trans ?_
    rw [← append_assoc]
    exact (r.cache.perm_removeRange address size).append_right _
  refine ⟨h.handOn rfl (hperm.append_left _) (h.agrees.removeRange address size) fun e he => ?_,
    fun _ c hc => hperm.mem_iff.mpr hc, rfl⟩
  exact h.placed e (Cache.mem_entries_removeRange he).1

omit h in
/-- The range of code in flight is given back. -/
theorem moves_free (h : r.Accounted stubs fill (c :: flight)) (counters : Counters) :
    Moves stubs fill flight r ({ r with counters }.free c) := by
  obtain ⟨live, huses, hlive⟩ := h.uses
  have hreleased : (r.arena.release c.range).Uses
      (stubs ++ (flight ++ r.held).map Compiled.range) :=
    huses.release (hlive.trans perm_middle)
  exact ⟨⟨⟨_, hreleased, .refl _⟩, h.fits, h.stub, h.agrees, h.placed⟩, fun _ _ hx => hx, rfl⟩

omit h in
theorem moves_foldl_free {removed : List Compiled}
    (h : r.Accounted stubs fill (removed ++ flight)) :
    Moves stubs fill flight r (removed.foldl free r) := by
  induction removed generalizing r with
  | nil => exact h.moves_refl
  | cons c removed ih =>
    have hfree : Moves stubs fill (removed ++ flight) r (r.free c) := moves_free h _
    exact hfree.trans (ih hfree.accounted)

theorem moves_reclaim : Moves stubs fill flight r r.reclaim.2 := by
  unfold reclaim
  split
  · exact h.moves_refl
  next hzero =>
    -- the code that waits is in flight from here on
    have hflight : { r with deferred := [] }.Accounted stubs fill (r.deferred ++ flight) := by
      refine h.handOn rfl ?_ h.agrees h.placed
      change r.deferred ++ flight ++ (r.cache.entries.map (·.2) ++ []) ~
        flight ++ (r.cache.entries.map (·.2) ++ r.deferred)
      rw [append_nil, append_assoc, ← append_assoc flight]
      exact perm_append_comm
    have hfree := hflight.moves_foldl_free
    exact ⟨hfree.accounted, fun hd => absurd hd hzero, hfree.dispatching⟩

theorem moves_clear : Moves stubs fill flight r r.clear.2 := by
  have hdefer : Moves stubs fill flight r
      ({ r with epoch := r.epoch + 1, cache := r.cache.clear.2 }.defer r.cache.clear.1) := by
    have hempty : r.cache.clear.2.entries = [] := Cache.entries_clear
    have hperm : r.cache.clear.2.entries.map (·.2) ++
        (r.deferred ++ r.cache.entries.map (·.2)) ~ r.held := by
      rw [hempty, map_nil, nil_append]
      exact perm_append_comm
    refine ⟨h.handOn rfl (hperm.append_left _) h.agrees.clear fun e he => ?_,
      fun _ c hc => hperm.mem_iff.mpr hc, rfl⟩
    have hnone : e ∈ r.cache.clear.2.entries := he
    cases hnone
  exact hdefer.trans hdefer.accounted.moves_reclaim

/-! ### Installing code -/

/-- A range that is taken for code brings that code into flight. -/
theorem moves_allocate {code : List UInt8} {arena : Arena}
    (htaken : r.arena.allocate code = .ok (c.range, arena)) (tier : Tier) (size : Nat) :
    Moves stubs fill (c :: flight) r ({ r with arena }.recordCompilation tier size) := by
  obtain ⟨live, huses, hlive⟩ := h.uses
  have hfits : arena.capacity ≤ UInt64.size := (Arena.allocate_spec htaken).2.2.2 ▸ h.fits
  exact ⟨⟨⟨_, huses.allocate htaken, (hlive.cons _).trans perm_middle.symm⟩, hfits, h.stub,
    h.agrees, h.placed⟩, fun _ _ hx => hx, rfl⟩

end

/-- Code in flight goes into the cache. What had its address before waits to be freed. -/
theorem moves_put (h : r.Accounted stubs fill (c :: flight))
    (hcache : r'.cache = r.cache.put c.guestAddress c)
    (hdeferred : r'.deferred = r.deferred ++ (r.cache.get? c.guestAddress).toList)
    (harena : r'.arena = r.arena) (hdispatching : r'.dispatching = r.dispatching) :
    Moves stubs fill flight r r' := by
  have hperm : r'.held ~ c :: r.held := by
    have hput := (h.agrees.filed.perm_put c.guestAddress c).map (·.2)
    rw [held, hcache, hdeferred]
    generalize r.cache.get? c.guestAddress = old at hput ⊢
    rw [map_append] at hput
    have hold : (old.map (c.guestAddress, ·)).toList.map (·.2) = old.toList := by
      cases old <;> rfl
    rw [hold] at hput
    calc _ ~ (r.cache.put c.guestAddress c).entries.map (·.2) ++ (old.toList ++ r.deferred) :=
          perm_append_comm.append_left _
      _ ~ old.toList ++ (r.cache.put c.guestAddress c).entries.map (·.2) ++ r.deferred := by
          rw [← append_assoc]
          exact perm_append_comm.append_right _
      _ ~ _ := hput.append_right _
  refine ⟨h.handOn harena ?_ ?_ fun e he => ?_, fun _ x hx => ?_, hdispatching⟩
  · exact (hperm.append_left _).trans perm_middle
  · rw [hcache]
    exact h.agrees.put c.guestAddress h.host_ne_fill
  · rw [hcache] at he
    rcases Cache.mem_entries_put he with rfl | he
    · rfl
    · exact h.placed e he
  · exact hperm.mem_iff.mpr (.tail _ hx)

theorem moves_install (h : r.Accounted stubs fill (c :: flight)) (expected : UInt64)
    (force : Bool) : Moves stubs fill flight r (r.install c expected force).2 := by
  unfold install Cache.install
  cases hget : r.cache.get? c.guestAddress with
  | some old => exact h.moves_free _
  | none =>
    have hput : { r with cache := r.cache.put c.guestAddress c }.deferred =
        r.deferred ++ (r.cache.get? c.guestAddress).toList := by
      rw [hget]
      exact (append_nil _).symm
    cases hstale : !force && r.epoch != expected with
    | true => exact h.moves_free _
    | false => exact h.moves_put rfl hput rfl rfl

/-- Code in flight takes the place of `current`, if that is still in the cache. -/
theorem moves_upgrade {current better : Compiled} (h : r.Accounted stubs fill (better :: flight))
    (haddress : better.guestAddress = current.guestAddress)
    (hcurrent : ∀ x, r.cache.get? current.guestAddress = some x → x = current)
    (expected : UInt64) : Moves stubs fill flight r (r.upgrade current better expected).2 := by
  unfold upgrade
  split
  · exact h.moves_free _
  · unfold Cache.replace
    cases hget : r.cache.get? current.guestAddress with
    | none => exact h.moves_free _
    | some live =>
      obtain rfl := hcurrent live hget
      rw [← haddress] at hget ⊢
      dsimp only
      rw [if_pos rfl]
      exact h.moves_put rfl (by rw [hget]; rfl) rfl rfl

end Accounted

end Recompiler

namespace Machine

open Recompiler (Accounted Moves)

variable {σ : Type} {sup : Supervisor σ} {stubs : List Range} {fill : UInt64}
  {flight : List Compiled} {m m' : Machine σ}

/-! ### Compiling -/

section

variable (stubs fill flight m m')

/-- Ranges were handed on, and no code was installed. -/
structure Retreats : Prop where
  moves : Moves stubs fill flight m.recompiler m'.recompiler
  entries : ∀ e ∈ m'.recompiler.cache.entries, e ∈ m.recompiler.cache.entries

/-- How a compilation of the block at `start` ends: its code is in flight, or there is none. -/
def Lands (start : UInt64) : Except RunError Compiled × Machine σ → Prop
  | (.ok c, m') => c.guestAddress = start ∧ Retreats stubs fill (c :: flight) m m'
  | (.error _, m') => Retreats stubs fill flight m m'

end

theorem Retreats.trans {flight' : List Compiled} {m'' : Machine σ}
    (h : Retreats stubs fill flight m m') (h' : Retreats stubs fill flight' m' m'') :
    Retreats stubs fill flight' m m'' :=
  ⟨h.moves.trans h'.moves, fun e he => h.entries e (h'.entries e he)⟩

/-- Whatever becomes of a compilation, it has made places in the table and nothing else. -/
theorem exists_table_ofBlock (block : Block) (mode : Guest.Mode) (options : Lift.Options)
    (table : AddressTable) :
    ∃ pcs : List UInt64, (Compilation.ofBlock block mode options table).generated.table =
      pcs.foldl (fun table pc => (table.ensure pc).2) table := by
  unfold Compilation.ofBlock Compilation.generate
  dsimp only
  split
  · exact Host.exists_table_generate _ _
  · exact ⟨[], rfl⟩

section

variable (sup) (h : m.recompiler.Accounted stubs fill flight)

include h

theorem Retreats.of_accounted (hsame : m'.recompiler = m.recompiler) :
    Retreats stubs fill flight m m' := by
  rw [← hsame] at h
  refine ⟨?_, fun e he => hsame ▸ he⟩
  rw [← hsame]
  exact h.moves_refl

theorem retreats_handleAll (ds : List Guest.Delivery) :
    Retreats stubs fill flight m (m.handleAll ds) := by
  induction ds generalizing m with
  | nil => exact .of_accounted h rfl
  | cons d ds ih =>
    have hhandle : Retreats stubs fill flight m (m.handle d) := by
      unfold handle
      split <;> exact ⟨h.moves_invalidate _ _, fun e he => (Cache.mem_entries_removeRange he).1⟩
    exact hhandle.trans (ih hhandle.moves.accounted)

theorem retreats_write (address : UInt64) (bytes : List UInt8) :
    Retreats stubs fill flight m (m.write address bytes).2 := by
  unfold write
  split
  next deliveries memory _ =>
    have hmemory : Retreats stubs fill flight m { m with memory } := .of_accounted h rfl
    exact hmemory.trans (retreats_handleAll hmemory.moves.accounted deliveries)
  next => exact .of_accounted h rfl

theorem retreats_read (address : UInt64) (size : Guest.AccessSize) :
    Retreats stubs fill flight m (m.read sup address size).2 := by
  unfold read
  split
  · exact .of_accounted h rfl
  · have hstate : Retreats stubs fill flight m
        { m with state := (sup.afterRead address m.state).2 } := .of_accounted h rfl
    refine foldlRecOn _ _ hstate fun m' hm w _ => ?_
    exact hm.trans (retreats_write hm.moves.accounted w.1 w.2)

theorem retreats_decode (start : UInt64) (mode : Guest.Mode) (limit : Nat) :
    Retreats stubs fill flight m (Block.decode (codeSource sup start) mode start limit m).2 := by
  refine Block.decode_keeps (fun a m' hm' => ?_) mode limit start (.of_accounted h rfl)
  exact hm'.trans (retreats_read sup hm'.moves.accounted a .word)

theorem lands_place (block : Block) (tier : Tier) :
    Lands stubs fill flight m block.start (m.place block tier) := by
  unfold place
  dsimp only
  generalize hcompilation : Compilation.ofBlock block m.config.mode _ _ = compilation
  have hplaces : Moves stubs fill flight m.recompiler
      (m.recompiler.newSerial.2.setTable compilation.generated.table) := by
    obtain ⟨pcs, htable⟩ := exists_table_ofBlock block m.config.mode _ _
    rw [hcompilation] at htable
    exact h.moves_of_places rfl rfl rfl ⟨pcs, by rw [htable]; rfl⟩
  split
  next => exact ⟨hplaces, fun e he => he⟩
  next code _ =>
    split
    next => exact ⟨hplaces, fun e he => he⟩
    next range arena htaken =>
      refine ⟨rfl, ?_, fun e he => he⟩
      exact hplaces.trans (hplaces.accounted.moves_allocate htaken tier _)

theorem lands_compile (address : UInt64) (tier : Tier) :
    Lands stubs fill flight m address (m.compile sup address tier) := by
  have htrack : Retreats stubs fill flight m (m.trackCode address) := .of_accounted h rfl
  have hdecode := htrack.trans (retreats_decode sup htrack.moves.accounted address
    (m.trackCode address).config.mode (m.trackCode address).config.maxBlock)
  unfold compile
  dsimp only
  split
  next heq =>
    rw [heq] at hdecode
    exact hdecode
  next block m' heq =>
    rw [heq] at hdecode
    have hplace := lands_place hdecode.moves.accounted block tier
    rw [(Block.decode_consecutive heq).1] at hplace
    generalize m'.place block tier = result at hplace ⊢
    obtain ⟨_ | c, m''⟩ := result
    · exact hdecode.trans hplace
    · exact ⟨hplace.1, hdecode.trans hplace.2⟩

end

/-! ### Operations -/

/-- How a request for the code of an address ends: nothing else is in flight, and code that is given
is in the cache. -/
structure Serves (stubs : List Range) (fill : UInt64) (address : UInt64) (m : Machine σ)
    (result : Except RunError Compiled × Machine σ) : Prop where
  moves : Moves stubs fill [] m.recompiler result.2.recompiler
  cached : ∀ c, result.1 = .ok c → result.2.recompiler.cache.get? address = some c

/-- How an installation ends: the code that is given is in the cache, and none is refused by
force. -/
def Installs (address : UInt64) (force : Bool) : InstallOutcome × Recompiler → Prop
  | (.installed c, r) | (.existing c, r) => r.cache.get? address = some c
  | (.stale, _) => force = false

theorem installs_install (r : Recompiler) (c : Compiled) (expected : UInt64) (force : Bool) :
    Installs c.guestAddress force (r.install c expected force) := by
  unfold install Cache.install
  cases hget : r.cache.get? c.guestAddress with
  | some old => exact hget
  | none =>
    have hput : (r.cache.put c.guestAddress c).get? c.guestAddress = some c := by
      rw [Cache.get?_put, if_pos rfl]
    cases hstale : !force && r.epoch != expected with
    | true =>
      change force = false
      simp_all
    | false => exact hput

/-- An operation on the code of a machine, or a change of the machine apart from its code. -/
inductive CodeOperation (σ : Type) where
  | obtain (address : UInt64)
  | resolve (pc : UInt64)
  | rejit (address : UInt64)
  | drain
  | enqueue (address : UInt64)
  | invalidate (address size : UInt64)
  | clear
  | reclaim
  | enterDispatch
  | leaveDispatch
  | elsewhere (change : Machine σ → Machine σ)

def operate (sup : Supervisor σ) (m : Machine σ) : CodeOperation σ → Machine σ
  | .obtain address => (m.obtain sup address).2
  | .resolve pc => (m.resolve sup pc).2
  | .rejit address => (m.rejit sup address).2
  | .drain => (m.drain sup).2
  | .enqueue address => m.mapRecompiler (·.enqueueRejit address)
  | .invalidate address size => (m.invalidate address size).2
  | .clear => m.mapRecompiler (·.clear.2)
  | .reclaim => m.mapRecompiler (·.reclaim.2)
  | .enterDispatch => m.mapRecompiler (·.enterDispatch)
  | .leaveDispatch => m.mapRecompiler (·.leaveDispatch)
  | .elsewhere change => { change m with recompiler := m.recompiler }

def operateAll (sup : Supervisor σ) (m : Machine σ) (operations : List (CodeOperation σ)) :
    Machine σ :=
  operations.foldl (operate sup) m

/-- Before each of the operations some thread may be running code. -/
def Dispatching (sup : Supervisor σ) : Machine σ → List (CodeOperation σ) → Prop
  | _, [] => True
  | m, operation :: rest =>
    m.recompiler.dispatching ≠ 0 ∧ Dispatching sup (m.operate sup operation) rest

section

variable (sup) (h : m.recompiler.Accounted stubs fill [])

include sup h

theorem serves_compileUntil (address : UInt64) (tier : Tier) (retries : Nat) :
    Serves stubs fill address m (compileUntil sup address tier retries m) := by
  induction retries using Nat.strongRecOn generalizing m with
  | ind retries ih =>
    have hcompile := lands_compile sup h address tier
    unfold compileUntil
    generalize m.compile sup address tier = result at hcompile ⊢
    obtain ⟨_ | c, m'⟩ := result
    · exact ⟨hcompile.moves, fun _ hc => by cases hc⟩
    · obtain ⟨rfl, hflight⟩ := hcompile
      have hmoves := hflight.moves.trans
        (hflight.moves.accounted.moves_install m.recompiler.epoch (retries == 0))
      have hinstalls := installs_install m'.recompiler c m.recompiler.epoch (retries == 0)
      dsimp only
      generalize m'.recompiler.install c m.recompiler.epoch (retries == 0) = installed
        at hmoves hinstalls ⊢
      obtain ⟨c' | c' | _, r⟩ := installed
      iterate 2 cases retries <;> exact ⟨hmoves, fun _ hc => Except.ok.inj hc ▸ hinstalls⟩
      · cases retries with
        | zero => cases hinstalls
        | succ retries =>
          have hretry : Serves stubs fill _ { m' with recompiler := r } _ :=
            ih retries (Nat.lt_succ_self _) hmoves.accounted
          exact ⟨hmoves.trans hretry.moves, hretry.cached⟩

theorem serves_obtain (address : UInt64) : Serves stubs fill address m (m.obtain sup address) := by
  unfold obtain
  split
  next c hget =>
    exact ⟨h.moves_refl, fun _ hc => Except.ok.inj hc ▸ hget⟩
  next => exact serves_compileUntil sup h address _ _

theorem serves_resolve (pc : UInt64) : Serves stubs fill pc m (m.resolve sup pc) := by
  unfold resolve
  split
  next c hpublished =>
    obtain ⟨host, -, hfilter⟩ := Option.bind_eq_some_iff.mp hpublished
    have hget := (Option.filter_eq_some_iff.mp hfilter).1
    exact ⟨h.moves_refl, fun _ hc => Except.ok.inj hc ▸ hget⟩
  next => exact serves_obtain sup h pc

theorem moves_rejit (address : UInt64) :
    Moves stubs fill [] m.recompiler (m.rejit sup address).2.recompiler := by
  unfold rejit
  split
  next => exact h.moves_refl
  next current hget =>
    have hentry := h.agrees.filed.get?_eq_some_iff.mp hget
    have haddress : current.guestAddress = address := h.placed _ hentry
    split
    next => exact h.moves_refl
    next =>
      have hcompile := lands_compile sup h address .optimized
      generalize m.compile sup address .optimized = result at hcompile ⊢
      obtain ⟨_ | better, m'⟩ := result
      · exact hcompile.moves
      · obtain ⟨hbetter, hflight⟩ := hcompile
        refine hflight.moves.trans (hflight.moves.accounted.moves_upgrade
          (hbetter.trans haddress.symm) (fun x hx => ?_) _)
        -- code may have been removed meanwhile, but none was installed
        rw [haddress] at hx
        have hold := hflight.entries _ (Cache.mem_entries_of_get? hx)
        exact Option.some.inj ((h.agrees.filed.get?_eq_some_iff.mpr hold).symm.trans hget)

theorem moves_drainFirst (count : Nat) :
    Moves stubs fill [] m.recompiler (drainFirst sup count m).2.recompiler := by
  induction count generalizing m with
  | zero => exact h.moves_refl
  | succ count ih =>
    unfold drainFirst
    split
    next => exact h.moves_refl
    next address rest _ =>
      have hpop : Moves stubs fill [] m.recompiler
          { m.recompiler with queue := { m.recompiler.queue with pending := rest } } :=
        h.moves_of_places rfl rfl rfl ⟨[], rfl⟩
      have hrejit := hpop.trans (moves_rejit sup
        (m := m.mapRecompiler fun r => { r with queue := { r.queue with pending := rest } })
        hpop.accounted address)
      exact hrejit.trans (ih hrejit.accounted)

/-- One operation: what is in use is accounted for, and nothing is freed under a thread. -/
theorem operate_spec (operation : CodeOperation σ) :
    (m.operate sup operation).recompiler.Accounted stubs fill [] ∧
      (m.recompiler.dispatching ≠ 0 →
        ∀ c ∈ m.recompiler.held, c ∈ (m.operate sup operation).recompiler.held) := by
  have hmoves : ∀ r', Moves stubs fill [] m.recompiler r' → r'.Accounted stubs fill [] ∧
      (m.recompiler.dispatching ≠ 0 → ∀ c ∈ m.recompiler.held, c ∈ r'.held) :=
    fun _ hr => ⟨hr.accounted, hr.held⟩
  cases operation with
  | obtain address => exact hmoves _ (serves_obtain sup h address).moves
  | resolve pc => exact hmoves _ (serves_resolve sup h pc).moves
  | rejit address => exact hmoves _ (moves_rejit sup h address)
  | drain => exact hmoves _ (moves_drainFirst sup h _)
  | enqueue address => exact hmoves _ (h.moves_of_places rfl rfl rfl ⟨[], rfl⟩)
  | invalidate address size => exact hmoves _ (h.moves_invalidate address size)
  | clear => exact hmoves _ h.moves_clear
  | reclaim => exact hmoves _ h.moves_reclaim
  | enterDispatch | leaveDispatch =>
    exact ⟨⟨h.uses, h.fits, h.stub, h.agrees, h.placed⟩, fun _ _ hc => hc⟩
  | elsewhere change => exact hmoves _ h.moves_refl

theorem accounted_operateAll (operations : List (CodeOperation σ)) :
    (m.operateAll sup operations).recompiler.Accounted stubs fill [] := by
  induction operations generalizing m with
  | nil => exact h
  | cons operation rest ih => exact ih (operate_spec sup h operation).1

theorem held_operateAll {operations : List (CodeOperation σ)}
    (hdispatching : Dispatching sup m operations) {c : Compiled} (hc : c ∈ m.recompiler.held) :
    c ∈ (m.operateAll sup operations).recompiler.held := by
  induction operations generalizing m with
  | nil => exact hc
  | cons operation rest ih =>
    obtain ⟨haccounted, hheld⟩ := operate_spec sup h operation
    exact ih haccounted hdispatching.2 (hheld hdispatching.1 c hc)

end

/-! ### The start -/

theorem placeStub_spec {arena arena' : Arena} {stub : Except Host.EncodingError (List UInt8)}
    {address : UInt64} (h : placeStub arena stub = .ok (address, arena')) :
    ∃ code range, arena.allocate code = .ok (range, arena') ∧ address = Arena.address range := by
  cases stub with
  | error e => cases h
  | ok code =>
    change (arena.allocate code >>= fun x => pure (Arena.address x.1, x.2)) = _ at h
    cases htaken : arena.allocate code with
    | error e =>
      rw [htaken] at h
      cases h
    | ok taken =>
      rw [htaken] at h
      cases h
      exact ⟨code, taken.1, htaken, rfl⟩

theorem accounted_ofConfig {config : Config} {r : Recompiler}
    (hfits : (Arena.ofSize config.arenaSize).capacity ≤ UInt64.size)
    (h : Recompiler.ofConfig config = .ok r) :
    ∃ stubs fill, stubs.length = 3 ∧ r.Accounted stubs fill [] := by
  obtain ⟨entry, exit, fill, hentry, hexit, hfill, rfl⟩ := Recompiler.ofConfig_cases h
  obtain ⟨_, first, hfirst, -⟩ := placeStub_spec hentry
  obtain ⟨_, second, hsecond, -⟩ := placeStub_spec hexit
  obtain ⟨_, third, hthird, haddress⟩ := placeStub_spec hfill
  refine ⟨[third, second, first], fill.1, rfl, ⟨_, ((((Arena.Uses.fresh _).allocate
    hfirst).allocate hsecond).allocate hthird), ?_⟩, ?_, ⟨third, ?_, haddress.symm⟩,
    Cache.Agrees.ofTable _ _, fun e he => ?_⟩
  · simp [held]
  · rw [(Arena.allocate_spec hthird).2.2.2, (Arena.allocate_spec hsecond).2.2.2,
      (Arena.allocate_spec hfirst).2.2.2]
    exact hfits
  · exact (.head _)
  · cases he

/-- Whatever is done with the code of a machine and however it ends: the ranges in use are three
stubs and the code that is cached or waits to be freed, each range is in use once, and what was
given back was in use. Code that is asked for is in the cache when it is given. As long as some
thread may be running code, all code whose address was given by the cache or the table stays in
use. -/
theorem code_memory_owned (sup : Supervisor σ) (config : Config)
    (hfits : (Arena.ofSize config.arenaSize).capacity ≤ UInt64.size) (memory : Guest.Memory)
    (clock : Clock) (state : σ) (m₀ : Machine σ)
    (hm₀ : ofConfig config memory clock state = .ok m₀) :
    ∃ stubs : List Range, stubs.length = 3 ∧ ∀ operations : List (CodeOperation σ),
      let m := m₀.operateAll sup operations
      m.recompiler.arena.liveAllocations =
          3 + m.recompiler.cache.size + m.recompiler.deferred.length ∧
        (∃ live, m.recompiler.arena.Uses live ∧ m.recompiler.arena.Tiled live ∧
          live ~ stubs ++ m.recompiler.held.map Compiled.range) ∧
        (∀ pc c, (m.obtain sup pc).1 = .ok c →
          (m.operate sup (.obtain pc)).recompiler.cache.get? pc = some c) ∧
        (∀ pc c, (m.resolve sup pc).1 = .ok c →
          (m.operate sup (.resolve pc)).recompiler.cache.get? pc = some c) ∧
        ∀ later, Dispatching sup m later → ∀ pc host,
          m.recompiler.table.lookup pc = some host ∨
            (m.recompiler.cache.get? pc).map Compiled.host = some host →
          ∃ c ∈ (m.operateAll sup later).recompiler.held, c.host = host := by
  obtain ⟨stubs, fill, hstubs, hstart⟩ := accounted_ofConfig hfits (ofConfig_spec hm₀).2
  refine ⟨stubs, hstubs, fun operations => ?_⟩
  intro m
  have haccounted : m.recompiler.Accounted stubs fill [] :=
    accounted_operateAll sup hstart operations
  obtain ⟨live, huses, hlive⟩ := haccounted.uses
  refine ⟨?_, ⟨live, huses, huses.tiled, hlive⟩, (serves_obtain sup haccounted · |>.cached),
    (serves_resolve sup haccounted · |>.cached), fun later hlater pc host hhost => ?_⟩
  · rw [huses.tiled.count, hlive.length_eq]
    simp [held, hstubs, Cache.size, Nat.add_assoc]
  · obtain ⟨c, hget, rfl⟩ : ∃ c, m.recompiler.cache.get? pc = some c ∧ c.host = host := by
      rcases hhost with hlookup | hget
      · rw [table, haccounted.agrees.lookup_eq] at hlookup
        exact Option.map_eq_some_iff.mp (Option.ite_none_right_eq_some.mp hlookup).2
      · exact Option.map_eq_some_iff.mp hget
    have hheld : c ∈ m.recompiler.held :=
      mem_append_left _ (mem_map.mpr ⟨_, Cache.mem_entries_of_get? hget, rfl⟩)
    exact ⟨c, held_operateAll sup haccounted hlater hheld, rfl⟩

def loopOperations : List (CodeOperation Unit) := [.obtain 0x1000, .rejit 0x1000, .enterDispatch]

theorem code_memory_owned_loop :
    ∃ m₀, ofConfig (.ofMode .a64) (Guest.Memory.empty.map 0x1000 #[0, 0, 0, 0x14] true)
        ⟨0, 1, 1⟩ () = .ok m₀ ∧
      (Arena.ofSize (Config.ofMode .a64).arenaSize).capacity ≤ UInt64.size ∧
      let m := m₀.operateAll idle loopOperations
      let later := [.invalidate 0x1000 4, .reclaim]
      Dispatching idle m later ∧
        m.recompiler.arena.liveAllocations =
          3 + m.recompiler.cache.size + m.recompiler.deferred.length ∧
        ∀ host, m.recompiler.table.lookup 0x1000 = some host →
          ∃ c ∈ (m.operateAll idle later).recompiler.held, c.host = host := by
  have hfits : (Arena.ofSize (Config.ofMode .a64).arenaSize).capacity ≤ UInt64.size := by decide
  obtain ⟨m₀, hm₀⟩ := exists_ofConfig_a64
    (Guest.Memory.empty.map 0x1000 #[0, 0, 0, 0x14] true) ⟨0, 1, 1⟩ ()
  obtain ⟨stubs, -, hall⟩ := code_memory_owned idle _ hfits _ _ _ m₀ hm₀
  obtain ⟨hcount, -, -, -, hlater⟩ := hall loopOperations
  have hdispatching : Dispatching idle (m₀.operateAll idle loopOperations)
      [.invalidate 0x1000 4, .reclaim] := ⟨Nat.succ_ne_zero _, Nat.succ_ne_zero _, trivial⟩
  exact ⟨m₀, hm₀, hfits, hdispatching, hcount,
    fun host hhost => hlater _ hdispatching 0x1000 host (.inl hhost)⟩

end Machine

end Dynarec
