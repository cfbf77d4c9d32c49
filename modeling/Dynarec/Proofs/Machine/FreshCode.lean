import Dynarec.Machine.Code
import Dynarec.Proofs.Code.CacheEntries
import Dynarec.Proofs.Guest.DecodedBlock
import Dynarec.Proofs.Guest.MemoryEvents

/-!
# Code in the cache is fresh

Every block in the cache was compiled from the bytes that its guest range holds now. The pages of
the range were tracked before the block was decoded, so a change of one of its bytes is reported,
and the report removes the block, wherever it starts.
-/

namespace Dynarec

open Recompiler
open Code (Cache Compiled)
open Guest (Block Memory Opcode addressAt)
open IR (Tier)

/-- Nothing is written because the guest reads: what is read is the memory itself. -/
def Supervisor.Quiet {σ : Type} (sup : Supervisor σ) : Prop :=
  ∀ address s, (sup.afterRead address s).1 = []

/-- The stubs stand one after the other in the arena that a recompiler starts with. -/
theorem Recompiler.ofConfig_cases {config : Config} {r : Recompiler}
    (h : Recompiler.ofConfig config = .ok r) :
    ∃ entry exit fill, placeStub (.ofSize config.arenaSize) Host.Stub.entry = .ok entry ∧
      placeStub entry.2 Host.Stub.exit = .ok exit ∧
      placeStub exit.2 (Host.Stub.fill Host.HostCall.functionAddress.address) = .ok fill ∧
      r = ⟨config, fill.2, exit.1, .ofTable (.ofMode config.mode fill.1),
        0, [], {}, 0, {}, #[]⟩ := by
  unfold Recompiler.ofConfig at h
  cases hentry : placeStub (.ofSize config.arenaSize) Host.Stub.entry with
  | error e => simp [hentry, bind, Except.bind] at h
  | ok entry =>
    cases hexit : placeStub entry.2 Host.Stub.exit with
    | error e => simp [hentry, hexit, bind, Except.bind] at h
    | ok exit =>
      cases hfill : placeStub exit.2 (Host.Stub.fill Host.HostCall.functionAddress.address) with
      | error e => simp [hentry, hexit, hfill, bind, Except.bind] at h
      | ok fill =>
        simp only [hentry, hexit, hfill, bind, Except.bind] at h
        cases h
        exact ⟨entry, exit, fill, rfl, hexit, hfill, rfl⟩

/-- Code goes into the cache at an address, or the cache stays as it is. -/
structure Recompiler.Puts (r : Recompiler) (a : UInt64) (c : Compiled) (r' : Recompiler) :
    Prop where
  cache : r'.cache = r.cache ∨ r'.cache = r.cache.put a c
  config : r'.config = r.config
  calls : r'.calls = r.calls

namespace Machine

variable {σ : Type} {sup : Supervisor σ} {memory : Memory} {a : UInt64} {m m' m'' m₀ : Machine σ}
  {c : Compiled}

/-! ### Decoding -/

theorem read_eq (hq : sup.Quiet) (m : Machine σ) (a : UInt64) (size : Guest.AccessSize) :
    (m.read sup a size).1 = m.memory.readValue a size ∧
      (m.read sup a size).2.memory = m.memory ∧
      (m.read sup a size).2.recompiler = m.recompiler := by
  unfold read
  split
  next e he => exact ⟨he.symm, rfl, rfl⟩
  next v hv =>
    dsimp only
    rw [hq, hv]
    exact ⟨rfl, rfl, rfl⟩

def wordAt (memory : Memory) (a : UInt64) : Except Guest.MemoryError UInt32 :=
  (memory.readValue a .word).map UInt64.toUInt32

theorem codeSource_reads (hq : sup.Quiet) (start : UInt64) (m : Machine σ) :
    (codeSource sup start).Reads
      (fun m' => m'.memory = m.memory ∧ m'.recompiler = m.recompiler) (wordAt m.memory)
      (fun a => a != start && m.recompiler.cache.contains a) where
  fetch a m' := by
    rintro ⟨hmemory, hrecompiler⟩
    obtain ⟨hvalue, hmemory', hrecompiler'⟩ := read_eq hq m' a .word
    refine ⟨?_, hmemory'.trans hmemory, hrecompiler'.trans hrecompiler⟩
    simp only [codeSource, hvalue, wordAt, hmemory]
  isEntry a m' := by
    rintro ⟨-, hrecompiler⟩
    simp only [codeSource, hrecompiler]

theorem exists_read_of_wordAt {w : UInt32} (h : wordAt memory a = .ok w) :
    ∃ bytes, memory.read a 4 = .ok bytes := by
  change ((memory.read a 4).map _).map _ = _ at h
  cases hread : memory.read a 4 with
  | ok bytes => exact ⟨bytes, rfl⟩
  | error e => rw [hread] at h; cases h

/-- The range of a decoded block is mapped and ends before the last address. -/
theorem decoded_range (hsound : memory.Sound) {mode : Guest.Mode} {entry : UInt64 → Bool}
    {limit : Nat} {b : Block} (h : Block.Decoded mode (wordAt memory) entry limit a b) {i : Nat}
    (hi : i < b.size) :
    a.toNat + i + 1 < UInt64.size ∧ (memory.byte? (a + i.toUInt64)).isSome = true := by
  have hread : ∀ k < b.opcodes.length, ∃ bytes, memory.read (addressAt a k) 4 = .ok bytes := by
    intro k hk
    obtain ⟨w, hw, -⟩ := h.words k _ (List.getElem?_eq_getElem hk)
    exact exists_read_of_wordAt hw
  have hend : ∀ k < b.opcodes.length, (addressAt a k).toNat + 4 < UInt64.size := by
    intro k hk
    obtain ⟨bytes, hbytes⟩ := hread k hk
    exact Memory.lt_of_read hbytes
  have hk : i / 4 < b.opcodes.length := by
    rw [Block.size, Opcode.size] at hi
    omega
  have hword := Guest.toNat_addressAt fun j hj => hend j (hj.trans hk)
  have hlast := hend _ hk
  obtain ⟨bytes, hbytes⟩ := hread _ hk
  have hbyte := hsound.byte?_of_read hbytes (Nat.mod_lt i (by decide))
  have haddress : addressAt a (i / 4) + (i % 4).toUInt64 = a + i.toUInt64 := by
    apply UInt64.toNat_inj.mp
    rw [Guest.toNat_add_toUInt64 (by omega), Guest.toNat_add_toUInt64 (by omega)]
    omega
  refine ⟨by omega, ?_⟩
  rw [← haddress, hbyte]
  simp [Memory.length_of_read hbytes, Nat.mod_lt]

/-! ### Compiling -/

section

variable (sup m m' c)

/-- The code was compiled between two states, from the memory of the first one. -/
structure CompiledBetween : Prop where
  first : m.recompiler.calls.size ≤ c.serial
  last : c.serial < m'.recompiler.calls.size
  source : ∃ mid : Machine σ, mid.memory.regions = m.memory.regions ∧
    (mid.compile sup c.guestAddress c.tier).1 = .ok c

/-- Code that came into being between two states: its guest range was mapped in the first one and is
tracked in the second one. -/
structure Arrives : Prop where
  compiled : CompiledBetween sup m m' c
  mapped : ∀ i < c.guestSize, c.guestAddress.toNat + i + 1 < UInt64.size ∧
    (m.memory.byte? (c.guestAddress + i.toUInt64)).isSome = true
  tracked : ∀ i < c.guestSize, m'.memory.Tracks (c.guestAddress + i.toUInt64)

/-- What compiling may change: pages become tracked, and entries of the cache are new code. -/
structure Advances : Prop where
  regions : m'.memory.regions = m.memory.regions
  handlers : m'.memory.handlers = m.memory.handlers
  tracks : ∀ a, m.memory.Tracks a → m'.memory.Tracks a
  config : m'.config = m.config
  span : m.recompiler.cache.maxSpan ≤ m'.recompiler.cache.maxSpan
  serials : m.recompiler.calls.size ≤ m'.recompiler.calls.size
  entries : ∀ e ∈ m'.recompiler.cache.entries, e ∈ m.recompiler.cache.entries ∨
    m'.recompiler.cache.Placed e ∧ Arrives sup m m' e.2

end

theorem Advances.refl (m : Machine σ) : Advances sup m m :=
  ⟨rfl, rfl, fun _ h => h, rfl, le_rfl, le_rfl, fun _ h => .inl h⟩

theorem Arrives.before (h : Advances sup m m') (hc : Arrives sup m' m'' c) :
    Arrives sup m m'' c := by
  obtain ⟨mid, hmid, hcompile⟩ := hc.compiled.source
  refine ⟨⟨h.serials.trans hc.compiled.first, hc.compiled.last, mid,
    hmid.trans h.regions, hcompile⟩, fun i hi => ?_, hc.tracked⟩
  rw [← Memory.byte?_congr h.regions]
  exact hc.mapped i hi

theorem Arrives.after (hc : Arrives sup m m' c)
    (hserials : m'.recompiler.calls.size ≤ m''.recompiler.calls.size)
    (htracks : ∀ a, m'.memory.Tracks a → m''.memory.Tracks a) : Arrives sup m m'' c :=
  ⟨⟨hc.compiled.first, hc.compiled.last.trans_le hserials, hc.compiled.source⟩,
    hc.mapped, fun i hi => htracks _ (hc.tracked i hi)⟩

theorem Advances.trans (h : Advances sup m m') (h' : Advances sup m' m'') : Advances sup m m'' where
  regions := h'.regions.trans h.regions
  handlers := h'.handlers.trans h.handlers
  tracks a ha := h'.tracks a (h.tracks a ha)
  config := h'.config.trans h.config
  span := h.span.trans h'.span
  serials := h.serials.trans h'.serials
  entries e he := by
    rcases h'.entries e he with he | ⟨hplaced, harrives⟩
    · rcases h.entries e he with he | ⟨hplaced, harrives⟩
      · exact .inl he
      · exact .inr ⟨hplaced.mono h'.span, harrives.after h'.serials h'.tracks⟩
    · exact .inr ⟨hplaced, harrives.before h⟩

structure Ready (m : Machine σ) : Prop where
  sound : m.memory.Sound
  room : 1 ≤ m.config.maxBlock
  placed : ∀ e ∈ m.recompiler.cache.entries, m.recompiler.cache.Placed e

theorem Advances.ready (h : Advances sup m m') (hm : m.Ready) : m'.Ready where
  sound := hm.sound.congr h.regions
  room := by
    rw [h.config]
    exact hm.room
  placed e he := by
    rcases h.entries e he with he | ⟨hplaced, -⟩
    · exact (hm.placed e he).mono h.span
    · exact hplaced

/-- Placing code changes the cache in the table only. -/
theorem place_spec {block : Block} {tier : Tier} {result : Except RunError Compiled}
    (h : m.place block tier = (result, m')) :
    m'.memory = m.memory ∧ m'.config = m.config ∧
      m'.recompiler.cache.shards = m.recompiler.cache.shards ∧
      m'.recompiler.cache.maxSpan = m.recompiler.cache.maxSpan ∧
      m'.recompiler.calls.size = m.recompiler.calls.size + 1 ∧
      ∀ c, result = .ok c → c.serial = m.recompiler.calls.size ∧
        c.guestAddress = block.start ∧ c.guestSize = block.size ∧ c.tier = tier := by
  unfold place at h
  dsimp only at h
  generalize Compilation.ofBlock block m.config.mode _ _ = c at h
  split at h
  · cases h
    exact ⟨rfl, rfl, rfl, rfl, by simp [newSerial, setTable], nofun⟩
  · split at h
    · cases h
      exact ⟨rfl, rfl, rfl, rfl, by simp [newSerial, setTable], nofun⟩
    · cases h
      refine ⟨rfl, rfl, rfl, rfl, ?_, ?_⟩
      · simp [newSerial, setTable, recordCompilation]
      · rintro c hc
        cases hc
        exact ⟨rfl, rfl, rfl, rfl⟩

/-- A change that leaves the memory and the entries of the cache alone. -/
theorem advances_of_same (hmemory : m'.memory = m.memory) (hconfig : m'.config = m.config)
    (hshards : m'.recompiler.cache.shards = m.recompiler.cache.shards)
    (hspan : m'.recompiler.cache.maxSpan = m.recompiler.cache.maxSpan)
    (hserials : m.recompiler.calls.size ≤ m'.recompiler.calls.size) : Advances sup m m' where
  regions := by rw [hmemory]
  handlers := by rw [hmemory]
  tracks _ h := by rwa [hmemory]
  config := hconfig
  span := hspan.symm.le
  serials := hserials
  entries _ h := .inl (by rwa [Cache.entries, hshards] at h)

/-- Compiling advances the machine without touching the entries, and its result is fresh. -/
theorem compile_spec (hq : sup.Quiet) (hm : m.Ready) (a : UInt64) (tier : Tier) :
    Advances sup m (m.compile sup a tier).2 ∧
      ∀ c, (m.compile sup a tier).1 = .ok c →
        c.guestAddress = a ∧ Arrives sup m (m.compile sup a tier).2 c := by
  have htrack : Advances sup m (m.trackCode a) :=
    ⟨Memory.regions_track _ _ _, Memory.handlers_track _ _ _, fun _ h => h.track _ _, rfl,
      le_rfl, le_rfl, fun _ h => .inl h⟩
  have hready := htrack.ready hm
  have hdecoded := Block.decode_decoded m.config.mode m.config.maxBlock a
    (codeSource_reads hq a (m.trackCode a)) ⟨rfl, rfl⟩
  obtain ⟨decoded, hdecode⟩ : ∃ decoded, Block.decode (codeSource sup a)
      (m.trackCode a).config.mode a (m.trackCode a).config.maxBlock (m.trackCode a) = decoded :=
    ⟨_, rfl⟩
  replace hdecoded := hdecode ▸ hdecoded
  obtain ⟨⟨hmemory, hrecompiler⟩, hblock⟩ := hdecoded
  have hkept : Advances sup m decoded.2 :=
    htrack.trans (advances_of_same hmemory (by rw [config, hrecompiler]; rfl)
      (by rw [hrecompiler]) (by rw [hrecompiler]) (Nat.le_of_eq (by rw [hrecompiler])))
  obtain ⟨result, m'⟩ := decoded
  cases result with
  | error fault =>
    have heq : m.compile sup a tier = (.error (.compile (.fetch fault)), m') := by
      rw [compile, hdecode]
    rw [heq]
    exact ⟨hkept, nofun⟩
  | ok block =>
    have heq : m.compile sup a tier = m'.place block tier := by rw [compile, hdecode]
    obtain ⟨hmemory', hconfig', hshards', hspan', hcalls', hplace⟩ :=
      place_spec (Prod.eta (m'.place block tier)).symm
    have hadvances : Advances sup m (m'.place block tier).2 :=
      hkept.trans (advances_of_same hmemory' hconfig' hshards' hspan'
        (Nat.lt_of_lt_of_eq (Nat.lt_succ_self _) hcalls'.symm).le)
    refine ⟨heq ▸ hadvances, fun c hc => ?_⟩
    have hc' := hc
    rw [heq] at hc'
    obtain ⟨hserial, hstart, hsize, rfl⟩ := hplace c hc'
    obtain rfl : c.guestAddress = a := hstart.trans hblock.start_eq
    have hrange := fun i hi => decoded_range hready.sound hblock (i := i) (hsize ▸ hi)
    refine ⟨rfl, ⟨?_, ?_, m, rfl, hc⟩, fun i hi => ?_, fun i hi => ?_⟩
    · rw [hserial]
      exact hkept.serials
    · rw [heq, hserial, hcalls']
      exact Nat.lt_succ_self _
    · rw [← Memory.byte?_congr htrack.regions]
      exact hrange i hi
    · -- the pages were tracked before the first word was fetched
      have hlt := (hrange i hi).1
      have hspan : i < 4 * m.config.maxBlock := by
        have hlength := hblock.length_le
        rw [hsize, Block.size, Opcode.size] at hi
        have hroom := hm.room
        omega
      have htracks : (m.trackCode c.guestAddress).memory.Tracks (c.guestAddress + i.toUInt64) := by
        have hnat := Guest.toNat_add_toUInt64 (a := c.guestAddress) (i := i) (by omega)
        refine Memory.tracks_track _ (by omega) ?_
        omega
      rw [heq]
      rw [← hmemory] at htracks
      rwa [hmemory']

/-- Putting fresh code into the cache. -/
theorem advances_put {r : Recompiler} (h : Advances sup m m')
    (hc : c.guestAddress = a ∧ Arrives sup m m' c) (hr : m'.recompiler.Puts a c r) :
    Advances sup m { m' with recompiler := r } := by
  obtain ⟨hcache, hconfig, hcalls⟩ := hr
  have hspan : m'.recompiler.cache.maxSpan ≤ r.cache.maxSpan := by
    rcases hcache with hcache | hcache
    · exact Nat.le_of_eq (by rw [hcache])
    · rw [hcache]
      exact le_max_left _ _
  have hserials : m'.recompiler.calls.size ≤ r.calls.size := Nat.le_of_eq (by rw [hcalls])
  refine ⟨h.regions, h.handlers, h.tracks, hconfig.trans h.config, h.span.trans hspan,
    h.serials.trans hserials, fun e he => ?_⟩
  have harrives : ∀ x, Arrives sup m m' x → Arrives sup m { m' with recompiler := r } x :=
    fun _ hx => hx.after hserials fun _ ht => ht
  have hold : e ∈ m'.recompiler.cache.entries → e ∈ m.recompiler.cache.entries ∨
      r.cache.Placed e ∧ Arrives sup m { m' with recompiler := r } e.2 := by
    intro he
    rcases h.entries e he with he | ⟨hplaced, hx⟩
    · exact .inl he
    · exact .inr ⟨hplaced.mono hspan, harrives _ hx⟩
  rcases hcache with hcache | hcache
  · rw [hcache] at he
    exact hold he
  · rw [hcache] at he
    rcases Cache.mem_entries_put he with rfl | he
    · refine .inr ⟨⟨hc.1.symm, ?_⟩, harrives _ hc.2⟩
      rw [hcache]
      exact le_max_right _ _
    · exact hold he

theorem puts_install (r : Recompiler) (c : Compiled) (expected : UInt64) (force : Bool) :
    r.Puts c.guestAddress c (r.install c expected force).2 := by
  unfold install Cache.install
  cases r.cache.get? c.guestAddress with
  | some old => exact ⟨.inl rfl, rfl, rfl⟩
  | none =>
    cases !force && r.epoch != expected with
    | true => exact ⟨.inl rfl, rfl, rfl⟩
    | false => exact ⟨.inr rfl, rfl, rfl⟩

theorem puts_upgrade (r : Recompiler) (current better : Compiled) (expected : UInt64) :
    r.Puts current.guestAddress better (r.upgrade current better expected).2 := by
  unfold upgrade
  split
  · exact ⟨.inl rfl, rfl, rfl⟩
  · unfold Cache.replace
    cases r.cache.get? current.guestAddress with
    | none => exact ⟨.inl rfl, rfl, rfl⟩
    | some live =>
      dsimp only
      by_cases hsame : live.serial = current.serial
      · rw [if_pos hsame]
        exact ⟨.inr rfl, rfl, rfl⟩
      · rw [if_neg hsame]
        exact ⟨.inl rfl, rfl, rfl⟩

section

variable (hq : sup.Quiet) (hm : m.Ready)

include hq hm

theorem advances_compileUntil (a : UInt64) (tier : Tier) (retries : Nat) :
    Advances sup m (compileUntil sup a tier retries m).2 := by
  induction retries using Nat.strongRecOn generalizing m with
  | ind retries ih =>
    obtain ⟨hadvances, hfresh⟩ := compile_spec hq hm a tier
    unfold compileUntil
    generalize m.compile sup a tier = result at hadvances hfresh ⊢
    obtain ⟨_ | c, m'⟩ := result
    · exact hadvances
    · have hc := hfresh c rfl
      have hput := advances_put hadvances hc
        (hc.1 ▸ puts_install m'.recompiler c m.recompiler.epoch (retries == 0))
      dsimp only at hput ⊢
      generalize m'.recompiler.install c m.recompiler.epoch (retries == 0) = installed at hput ⊢
      obtain ⟨_ | _ | _, r⟩ := installed <;> cases retries <;> try exact hput
      exact hput.trans (ih _ (Nat.lt_succ_self _) (hput.ready hm))

theorem advances_obtain (a : UInt64) : Advances sup m (m.obtain sup a).2 := by
  unfold obtain
  split
  · exact .refl m
  · exact advances_compileUntil hq hm a _ _

theorem advances_rejit (a : UInt64) : Advances sup m (m.rejit sup a).2 := by
  unfold rejit
  split
  · exact .refl m
  next current hcurrent =>
    split
    · exact .refl m
    · -- the entry of an address is a block at this address, and so is what replaces it
      obtain rfl : a = current.guestAddress :=
        (hm.placed _ (Cache.mem_entries_of_get? hcurrent)).address
      obtain ⟨hadvances, hfresh⟩ := compile_spec hq hm _ .optimized
      generalize m.compile sup _ .optimized = result at hadvances hfresh ⊢
      obtain ⟨_ | better, m'⟩ := result
      · exact hadvances
      · exact advances_put hadvances (hfresh better rfl) (puts_upgrade ..)

theorem advances_drainFirst (count : Nat) : Advances sup m (drainFirst sup count m).2 := by
  induction count generalizing m with
  | zero => exact .refl m
  | succ count ih =>
    unfold drainFirst
    split
    · exact .refl m
    next a rest _ =>
      have hpop : Advances sup m (m.mapRecompiler fun r =>
          { r with queue := { r.queue with pending := rest } }) :=
        advances_of_same rfl rfl rfl rfl le_rfl
      have hrejit := advances_rejit hq (hpop.ready hm) a
      exact (hpop.trans hrejit).trans (ih (hrejit.ready (hpop.ready hm)))

end

/-! ### Removing code -/

structure Drops (m m' : Machine σ) : Prop where
  memory : m'.memory = m.memory
  config : m'.config = m.config
  span : m'.recompiler.cache.maxSpan = m.recompiler.cache.maxSpan
  entries : ∀ e ∈ m'.recompiler.cache.entries, e ∈ m.recompiler.cache.entries

theorem drops_invalidate (m : Machine σ) (address size : UInt64) :
    Drops m (m.invalidate address size).2 where
  memory := rfl
  config := rfl
  span := rfl
  entries _ he := (Cache.mem_entries_removeRange he).1

theorem reclaim_spec (r : Recompiler) :
    r.reclaim.2.cache = r.cache ∧ r.reclaim.2.config = r.config := by
  unfold reclaim
  split
  · exact ⟨rfl, rfl⟩
  · refine List.foldlRecOn _ free
      (motive := fun s : Recompiler => s.cache = r.cache ∧ s.config = r.config) ⟨rfl, rfl⟩ ?_
    exact fun _ hs _ _ => hs

theorem drops_clear (m : Machine σ) : Drops m (m.mapRecompiler (·.clear.2)) where
  memory := rfl
  config := (reclaim_spec _).2
  span := by
    simp only [mapRecompiler, clear, (reclaim_spec _).1]
    rfl
  entries e he := by
    simp only [mapRecompiler, clear, (reclaim_spec _).1] at he
    cases he

theorem Drops.placed (h : Drops m m') {e : UInt64 × Compiled} (he : m.recompiler.cache.Placed e) :
    m'.recompiler.cache.Placed e := he.mono h.span.symm.le

/-- The entries that are left after some deliveries have no byte that one of them is about. -/
theorem handleAll_spec (m : Machine σ) (ds : List Guest.Delivery) :
    Drops m (m.handleAll ds) ∧
      ∀ e ∈ (m.handleAll ds).recompiler.cache.entries, m.recompiler.cache.Placed e →
        ∀ d ∈ ds, e.2.overlaps d.event.range.1 d.event.range.2.toUInt64 = false := by
  induction ds generalizing m with
  | nil => exact ⟨⟨rfl, rfl, rfl, fun _ h => h⟩, fun _ _ _ d hd => by cases hd⟩
  | cons d ds ih =>
    have hhandle : m.handle d = (m.invalidate d.event.range.1 d.event.range.2.toUInt64).2 := by
      unfold handle Guest.MemoryEvent.range
      split <;> simp_all
    have hdrops : Drops m (m.handle d) := hhandle ▸ drops_invalidate m _ _
    obtain ⟨hrest, hover⟩ := ih (m.handle d)
    refine ⟨⟨hrest.memory.trans hdrops.memory, hrest.config.trans hdrops.config,
      hrest.span.trans hdrops.span, fun e he => hdrops.entries e (hrest.entries e he)⟩, ?_⟩
    intro e he hplaced d' hd'
    rcases List.mem_cons.mp hd' with rfl | hd'
    · have hleft := hrest.entries e he
      rw [hhandle] at hleft
      exact hplaced.hit_eq ▸ (Cache.mem_entries_removeRange hleft).2
    · exact hover e he (hdrops.placed hplaced) d' hd'

/-! ### Actions -/

/-- A call of the host that reaches the code of the guest. -/
inductive CodeAction where
  | write (address : UInt64) (bytes : List UInt8)
  | unmap (base : UInt64)
  | map (base : UInt64) (size : Nat) (writable : Bool)
  | mapBytes (base : UInt64) (bytes : Array UInt8) (writable : Bool)
  | obtain (address : UInt64)
  | enqueue (address : UInt64)
  | rejit (address : UInt64)
  | drain
  | invalidate (address size : UInt64)
  | clear

def act (sup : Supervisor σ) (m : Machine σ) : CodeAction → Machine σ
  | .write address bytes => (m.write address bytes).2
  | .unmap base => (m.unmap base).2
  | .map base size writable => m.map base size writable
  | .mapBytes base bytes writable => { m with memory := m.memory.map base bytes writable }
  | .obtain address => (m.obtain sup address).2
  | .enqueue address => m.mapRecompiler (·.enqueueRejit address)
  | .rejit address => (m.rejit sup address).2
  | .drain => (m.drain sup).2
  | .invalidate address size => (m.invalidate address size).2
  | .clear => m.mapRecompiler (·.clear.2)

/-- A new region ends inside the address space and meets no other one. -/
def CodeAction.Admissible (m : Machine σ) : CodeAction → Prop
  | .map base size _ => base.toNat + size < UInt64.size ∧ m.memory.Spares base size
  | .mapBytes base bytes _ =>
    base.toNat + bytes.size < UInt64.size ∧ m.memory.Spares base bytes.size
  | _ => True

def acts (sup : Supervisor σ) (m : Machine σ) (actions : List CodeAction) : Machine σ :=
  actions.foldl (act sup) m

/-- Every action is admissible in the state it is made in. -/
def Admits (sup : Supervisor σ) : Machine σ → List CodeAction → Prop
  | _, [] => True
  | m, action :: rest => action.Admissible m ∧ Admits sup (m.act sup action) rest

structure Watched (m : Machine σ) (c : Compiled) : Prop where
  inside : ∀ i < c.guestSize, c.guestAddress.toNat + i + 1 < UInt64.size
  mapped : ∀ i < c.guestSize, (m.memory.byte? (c.guestAddress + i.toUInt64)).isSome = true
  tracked : ∀ i < c.guestSize, m.memory.Tracks (c.guestAddress + i.toUInt64)

/-- What an action does to the entries of the cache: those that were there before keep the bytes of
their ranges, and new ones come from the memory as it is. -/
structure Passes (sup : Supervisor σ) (m m' : Machine σ) : Prop where
  ready : m'.Ready
  handlers : m'.memory.handlers = m.memory.handlers
  tracks : ∀ a, m.memory.Tracks a → m'.memory.Tracks a
  entries : ∀ e ∈ m'.recompiler.cache.entries,
    (e ∈ m.recompiler.cache.entries ∧ (m.Watched e.2 → ∀ i < e.2.guestSize,
      m'.memory.byte? (e.2.guestAddress + i.toUInt64) =
        m.memory.byte? (e.2.guestAddress + i.toUInt64))) ∨
    (Arrives sup m m' e.2 ∧ ∀ a, m'.memory.byte? a = m.memory.byte? a)

theorem Advances.passes (h : Advances sup m m') (hm : m.Ready) : Passes sup m m' where
  ready := h.ready hm
  handlers := h.handlers
  tracks := h.tracks
  entries e he := by
    have hbytes := Memory.byte?_congr h.regions
    exact (h.entries e he).imp (fun he => ⟨he, fun _ i _ => hbytes _⟩)
      fun harrives => ⟨harrives.2, hbytes⟩

theorem Drops.passes (h : Drops m m') (hm : m.Ready) : Passes sup m m' where
  ready := ⟨h.memory ▸ hm.sound, h.config ▸ hm.room,
    fun e he => h.placed (hm.placed e (h.entries e he))⟩
  handlers := by rw [h.memory]
  tracks _ ha := by rwa [h.memory]
  entries e he := .inl ⟨h.entries e he, fun _ i _ => by rw [h.memory]⟩

/-- A change of memory whose deliveries are handled. -/
theorem passes_memory (sup : Supervisor σ) (hm : m.Ready) (hhandlers : 0 < m.memory.handlers)
    (action : Memory.Action) (hfits : action.Fits) (hspares : action.Spares m.memory)
    (hkeeps : (m.memory.act action).2.handlers = m.memory.handlers ∧
      (m.memory.act action).2.tracked = m.memory.tracked) :
    Passes sup m
      ({ m with memory := (m.memory.act action).2 }.handleAll (m.memory.act action).1) := by
  obtain ⟨hdrops, hover⟩ :=
    handleAll_spec { m with memory := (m.memory.act action).2 } (m.memory.act action).1
  have hpasses : Passes sup { m with memory := (m.memory.act action).2 } _ :=
    hdrops.passes ⟨hm.sound.act hfits, hm.room, hm.placed⟩
  refine ⟨hpasses.ready, hpasses.handlers.trans hkeeps.1, fun a ha => hpasses.tracks a ?_,
    fun e he => .inl ⟨hdrops.entries e he, ?_⟩⟩
  · obtain ⟨t, ht, hpage⟩ := ha
    exact ⟨t, hkeeps.2 ▸ ht, hpage⟩
  · intro hwatched i hi
    rw [hdrops.memory]
    obtain ⟨b, hb⟩ := Option.isSome_iff_exists.mp (hwatched.mapped i hi)
    by_contra hchange
    -- a changed byte is covered by an event, and handling it would have removed the entry
    obtain ⟨ev, hcovers, hdelivered⟩ := Memory.exists_delivery hspares (hwatched.tracked i hi) hb
      (by rwa [hb] at hchange)
    have hmem := hdelivered 0 hhandlers
    have hrange := hm.sound.range_lt hmem
    have hinside := hwatched.inside i hi
    rw [Guest.MemoryEvent.Covers, Guest.toNat_add_toUInt64 (by omega)] at hcovers
    have hsize : ev.range.2.toUInt64.toNat = ev.range.2 :=
      UInt64.toNat_ofNat_of_lt' (by dsimp only at hrange; omega)
    have hyes := e.2.overlaps_of_byte ev.range.1 ev.range.2.toUInt64 (by rw [hsize]; exact hrange)
      hcovers.1 (by rw [hsize]; exact hcovers.2) (Nat.le_add_right _ _) (Nat.add_lt_add_left hi _)
    rw [hover e he (hm.placed e (hdrops.entries e he)) _ hmem] at hyes
    cases hyes

variable {action : CodeAction} {actions : List CodeAction}

theorem passes_act (hq : sup.Quiet) (hm : m.Ready) (hhandlers : 0 < m.memory.handlers)
    (h : action.Admissible m) :
    Passes sup m (m.act sup action) := by
  cases action with
  | write address bytes =>
    have hpass := passes_memory sup hm hhandlers (.write address bytes) trivial trivial
    simp only [Memory.act] at hpass
    simp only [act, write]
    rcases m.memory.write_cases address bytes with ⟨e, he⟩ | ⟨-, -, hok⟩
    · rw [he] at hpass ⊢
      exact hpass ⟨rfl, rfl⟩
    · rw [hok] at hpass ⊢
      exact hpass ⟨rfl, rfl⟩
  | unmap base =>
    refine passes_memory sup hm hhandlers (.unmap base) trivial trivial ?_
    simp only [Memory.act, Memory.unmap]
    split <;> exact ⟨rfl, rfl⟩
  | map base size writable =>
    exact passes_memory sup hm hhandlers (.map base size writable) h.1 h.2 ⟨rfl, rfl⟩
  | mapBytes base bytes writable =>
    exact passes_memory sup hm hhandlers (.mapBytes base bytes writable) h.1 h.2 ⟨rfl, rfl⟩
  | obtain address => exact (advances_obtain hq hm address).passes hm
  | enqueue address =>
    have hadvances : Advances sup m (m.act sup (.enqueue address)) :=
      advances_of_same rfl rfl rfl rfl le_rfl
    exact hadvances.passes hm
  | rejit address => exact (advances_rejit hq hm address).passes hm
  | drain => exact (advances_drainFirst hq hm _).passes hm
  | invalidate address size => exact (drops_invalidate m address size).passes hm
  | clear => exact (drops_clear m).passes hm

/-! ### Runs -/

theorem acts_concat (m : Machine σ) (actions : List CodeAction) (action : CodeAction) :
    m.acts sup (actions ++ [action]) = (m.acts sup actions).act sup action := by
  simp [acts]

theorem admits_concat (h : Admits sup m (actions ++ [action])) :
    Admits sup m actions ∧ action.Admissible (m.acts sup actions) := by
  induction actions generalizing m with
  | nil => exact ⟨trivial, h.1⟩
  | cons first rest ih => exact ⟨⟨h.1, (ih h.2).1⟩, (ih h.2).2⟩

/-- One of the actions compiled the code, and the bytes of its guest range are now what they were
when it did. -/
def Fresh (sup : Supervisor σ) (m₀ : Machine σ) (actions : List CodeAction) (c : Compiled) : Prop :=
  ∃ before action after, actions = before ++ action :: after ∧
    CompiledBetween sup (m₀.acts sup before) ((m₀.acts sup before).act sup action) c ∧
    ∀ i < c.guestSize, ∃ b,
      (m₀.acts sup before).memory.byte? (c.guestAddress + i.toUInt64) = some b ∧
      (m₀.acts sup actions).memory.byte? (c.guestAddress + i.toUInt64) = some b

theorem Fresh.concat (h : Fresh sup m₀ actions c) (hbytes : ∀ i < c.guestSize,
      ((m₀.acts sup actions).act sup action).memory.byte? (c.guestAddress + i.toUInt64) =
        (m₀.acts sup actions).memory.byte? (c.guestAddress + i.toUInt64)) :
    Fresh sup m₀ (actions ++ [action]) c := by
  obtain ⟨before, compiling, after, rfl, hcompiled, hsame⟩ := h
  refine ⟨before, compiling, after ++ [action], by simp, hcompiled, fun i hi => ?_⟩
  obtain ⟨b, hthen, hnow⟩ := hsame i hi
  refine ⟨b, hthen, ?_⟩
  rw [acts_concat, hbytes i hi, hnow]

structure FreshCache (sup : Supervisor σ) (m₀ : Machine σ) (actions : List CodeAction) : Prop where
  ready : (m₀.acts sup actions).Ready
  handlers : 0 < (m₀.acts sup actions).memory.handlers
  fresh : ∀ e ∈ (m₀.acts sup actions).recompiler.cache.entries, Fresh sup m₀ actions e.2
  watched : ∀ e ∈ (m₀.acts sup actions).recompiler.cache.entries, (m₀.acts sup actions).Watched e.2

theorem FreshCache.concat (hq : sup.Quiet) (h : FreshCache sup m₀ actions)
    (hadmissible : action.Admissible (m₀.acts sup actions)) :
    FreshCache sup m₀ (actions ++ [action]) := by
  have hpass := passes_act hq h.ready h.handlers hadmissible
  have hentry : ∀ e ∈ ((m₀.acts sup actions).act sup action).recompiler.cache.entries,
      Fresh sup m₀ (actions ++ [action]) e.2 ∧
        ((m₀.acts sup actions).act sup action).Watched e.2 := by
    intro e he
    rcases hpass.entries e he with ⟨he, hkept⟩ | ⟨harrives, hbytes⟩
    · have hwatched := h.watched e he
      refine ⟨(h.fresh e he).concat (hkept hwatched), hwatched.inside, fun i hi => ?_,
        fun i hi => hpass.tracks _ (hwatched.tracked i hi)⟩
      rw [hkept hwatched i hi]
      exact hwatched.mapped i hi
    · refine ⟨⟨actions, action, [], rfl, harrives.compiled, fun i hi => ?_⟩,
        fun i hi => (harrives.mapped i hi).1, fun i hi => ?_, harrives.tracked⟩
      · obtain ⟨b, hb⟩ := Option.isSome_iff_exists.mp (harrives.mapped i hi).2
        exact ⟨b, hb, by rw [acts_concat, hbytes, hb]⟩
      · rw [hbytes]
        exact (harrives.mapped i hi).2
  rw [← acts_concat] at hpass hentry
  exact ⟨hpass.ready, hpass.handlers ▸ h.handlers, fun e he => (hentry e he).1,
    fun e he => (hentry e he).2⟩

theorem freshCache (hq : sup.Quiet) (hready : m₀.Ready)
    (hempty : m₀.recompiler.cache.entries = []) (hhandlers : 0 < m₀.memory.handlers)
    (actions : List CodeAction) (h : Admits sup m₀ actions) : FreshCache sup m₀ actions := by
  induction actions using List.reverseRecOn with
  | nil =>
    have hnone : ∀ e, e ∉ (m₀.acts sup []).recompiler.cache.entries := by
      intro e he
      rw [show m₀.acts sup [] = m₀ from rfl, hempty] at he
      cases he
    exact ⟨hready, hhandlers, fun e he => absurd he (hnone e), fun e he => absurd he (hnone e)⟩
  | append_singleton actions action ih =>
    obtain ⟨hactions, haction⟩ := admits_concat h
    exact (ih hactions).concat hq haction

theorem ofConfig_spec {config : Config} {clock : Clock} {state : σ}
    (h : ofConfig config memory clock state = .ok m) :
    m.memory = memory ∧ Recompiler.ofConfig config = .ok m.recompiler := by
  unfold ofConfig at h
  cases hr : Recompiler.ofConfig config with
  | error e => simp [hr] at h
  | ok r =>
    rw [hr] at h
    cases h
    exact ⟨rfl, rfl⟩

theorem exists_ofConfig_a64 (memory : Memory) (clock : Clock) (state : σ) :
    ∃ m, ofConfig (.ofMode .a64) memory clock state = .ok m := by
  have hok : (Recompiler.ofConfig (.ofMode .a64)).isOk = true := by decide +kernel
  cases hr : Recompiler.ofConfig (.ofMode .a64) with
  | error e => simp [hr, Except.toBool] at hok
  | ok r => exact ⟨_, rfl⟩

/-- However the memory was set up and whatever the host does after it has subscribed the machine, as
long as regions are mapped apart from each other: every block in the cache stands at its address, it
was compiled by one of the actions, the bytes of its guest range are now what they were then, and
their pages are tracked. -/
theorem no_stale_code (sup : Supervisor σ) (hq : sup.Quiet) (config : Config)
    (hroom : 1 ≤ config.maxBlock) (setup : List Memory.Action)
    (hsetup : ∀ action ∈ setup, action.Fits) (clock : Clock) (state : σ) (m₀ : Machine σ)
    (hm₀ : ofConfig config (Memory.empty.acts setup).subscribe clock state = .ok m₀)
    (actions : List CodeAction) (hactions : Admits sup m₀ actions) :
    ∀ e ∈ (m₀.acts sup actions).recompiler.cache.entries,
      e.1 = e.2.guestAddress ∧ Fresh sup m₀ actions e.2 ∧
        ∀ i < e.2.guestSize,
          (m₀.acts sup actions).memory.Tracks (e.2.guestAddress + i.toUInt64) := by
  obtain ⟨hmemory, hr⟩ := ofConfig_spec hm₀
  obtain ⟨hconfig, hempty⟩ : m₀.config = config ∧ m₀.recompiler.cache.entries = [] := by
    obtain ⟨entry, exit, fill, -, -, -, hr⟩ := Recompiler.ofConfig_cases hr
    rw [Machine.config, hr]
    exact ⟨rfl, Cache.entries_ofTable _⟩
  have hready : m₀.Ready := by
    refine ⟨?_, hconfig ▸ hroom, fun e he => ?_⟩
    · rw [hmemory]
      exact (Memory.sound_acts hsetup).congr rfl
    · rw [hempty] at he
      cases he
  have hcache := freshCache hq hready hempty (by rw [hmemory]; exact Nat.succ_pos _) actions
    hactions
  exact fun e he => ⟨(hcache.ready.placed e he).address, hcache.fresh e he,
    (hcache.watched e he).tracked⟩

def idle : Supervisor Unit := .ofCalls fun _ _ m => m

def oneCall : List Memory.Action := [.mapBytes 0x1000 #[0x01, 0x00, 0x00, 0xd4] true]

/-- Code that is compiled, overwritten in part and compiled again in both tiers. -/
def patching : List CodeAction :=
  [.map 0x3000 0x1000 true, .obtain 0x1000, .write 0x1002 [0x20, 0xd4], .obtain 0x1000,
    .enqueue 0x1000, .drain, .unmap 0x3000]

theorem no_stale_code_patching :
    ∃ m₀, ofConfig (.ofMode .a64) (Memory.empty.acts oneCall).subscribe ⟨0, 1, 1⟩ () = .ok m₀ ∧
      Admits idle m₀ patching ∧
      (m₀.acts idle patching).recompiler.cache.contains 0x1000 = true ∧
      ∀ e ∈ (m₀.acts idle patching).recompiler.cache.entries,
        e.1 = e.2.guestAddress ∧ Fresh idle m₀ patching e.2 ∧
          ∀ i < e.2.guestSize,
            (m₀.acts idle patching).memory.Tracks (e.2.guestAddress + i.toUInt64) := by
  obtain ⟨m₀, hm₀⟩ := exists_ofConfig_a64
    (Memory.empty.acts oneCall).subscribe ⟨0, 1, 1⟩ ()
  have hadmits : Admits idle m₀ patching := by
    refine ⟨⟨by decide, ?_⟩, trivial, trivial, trivial, trivial, trivial, trivial, trivial⟩
    rw [(ofConfig_spec hm₀).1]
    decide
  have hlive : (ofConfig (.ofMode .a64) (Memory.empty.acts oneCall).subscribe ⟨0, 1, 1⟩
      ()).toOption.map (fun m => (m.acts idle patching).recompiler.cache.contains 0x1000) =
        some true := by
    decide +kernel
  rw [hm₀] at hlive
  exact ⟨m₀, hm₀, hadmits, Option.some.inj hlive, no_stale_code idle (fun _ _ => rfl)
    (.ofMode .a64) (by decide) oneCall (by simp [oneCall, Memory.Action.Fits]; decide)
    ⟨0, 1, 1⟩ () m₀ hm₀ patching hadmits⟩

end Machine

end Dynarec
