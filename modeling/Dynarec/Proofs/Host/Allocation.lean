import Dynarec.Proofs.Host.Emission
import Dynarec.Proofs.IR.Liveness
import Dynarec.Proofs.IR.Registers

/-!
# Locals in registers and slots

While a block is lowered, registers, slots and dirty bits stand for the values of the locals. A
register has the value of its owner; a local that is not dirty has its value in its slot; a dirty
one has a register and is not live after the block. Taking a register, evicting its owner,
redefining a local that is still being read and giving up registers for a call all keep that.
-/

namespace Dynarec.Host

open RegisterFile GpMap

/-! ### Instructions -/

namespace Asm

variable {d r q : Reg} {i j : Gp} (a : Assembler)

theorem run_load (width : Width) (disp : Int32) (hi : d.gp? = some i) (hj : r.gp? = some j) :
    (load width d r disp).run a =
      (.ok (), a.push (.load width i j disp)) := by
  simp only [load, gp, hi, hj]
  rfl

theorem run_store (width : Width) (disp : Int32) (hi : r.gp? = some i) (hj : q.gp? = some j) :
    (store width r disp q).run a =
      (.ok (), a.push (.store width i disp j)) := by
  simp only [store, gp, hi, hj]
  rfl

end Asm

namespace Exec

theorem lowBits_b64 (v : UInt64) : lowBits .b64 v = v := by
  simp [lowBits, widthBits]

end Exec

namespace Codegen

open IR (BlockId Function Instruction LocalSet OperandId Operation Ty)

variable {k : Nat} {known' : Nat → Prop} {r : Reg} {α : Type} {v : Value} {frame : IR.Frame}
  {dirty : LocalSet} {dest : OperandId}

/-! ### Slots -/

def slotAt (base : UInt64) (l : Nat) : UInt64 := base + (8 * l).toUInt64

theorem slotAt_inj {base : UInt64} {l : Nat} (hl : l < 2 ^ 28) (hk : k < 2 ^ 28)
    (h : slotAt base l = slotAt base k) : l = k := by
  have heq : (8 * l).toUInt64 = (8 * k).toUInt64 := UInt64.add_right_inj base |>.mp h
  have hnat := congrArg UInt64.toNat heq
  simp at hnat
  omega

theorem slot_disp {l : Nat} (hl : l < 2 ^ 28) :
    UInt64.ofInt (Int32.ofNat (l * 8)).toInt = (8 * l).toUInt64 := by
  have hint : (Int32.ofNat (l * 8)).toInt = ((8 * l : Nat)) := by
    rw [Int32.toInt_ofNat_of_lt (by omega), Nat.mul_comm]
  apply UInt64.toNat_inj.mp
  simp only [UInt64.ofInt, UInt64.toNat_ofNat']
  omega

variable {ω : Type} {host : Surroundings ω} {code : Assembler} {env : Env} {s t : State}
  {c c' : Cpu} {w : ω}

structure Keeps (s t : State) : Prop where
  regs : t.regs = s.regs
  dirty : t.dirty = s.dirty
  block : t.block = s.block
  stale : t.stale = s.stale

def writeSlot (c : Cpu) (base : UInt64) (l : Nat) (v : UInt64) : Cpu :=
  { c with stack := c.stack.write (slotAt base l) v }

def readSlot (c : Cpu) (base : UInt64) (l : Nat) : UInt64 := c.stack.read (slotAt base l)

theorem readSlot_writeSlot {base : UInt64} {l : Nat} {v : UInt64} (hl : l < 2 ^ 28)
    (hk : k < 2 ^ 28) :
    readSlot (writeSlot c base l v) base k = if k = l then v else readSlot c base k := by
  rw [readSlot, writeSlot, Stack.read_write]
  by_cases h : k = l
  · simp [h]
  · have hne : slotAt base k ≠ slotAt base l := fun he => h (slotAt_inj hk hl he)
    simp [h, hne, readSlot]

theorem passes_storeSlot {base : UInt64} {l : Nat} {g : Gp} (hl : l < 2 ^ 28)
    (hsp : c.get Gp.sp = base) :
    Passes host code env (storeSlot l (.gp g.val)) s c w fun _ t c' w' =>
      w' = w ∧ c' = writeSlot c base l (c.get g) ∧ Keeps s t := by
  refine leads_read_bind ?_
  refine passes_emit (Asm.run_store s.asm .b64 _ (i := Gp.sp) rfl (Reg.gp?_gp g)) rfl ?_
    ⟨rfl, rfl, rfl, rfl, rfl, rfl⟩
  simp only [Exec.step, Exec.store?]
  rw [if_neg (by decide), if_pos trivial]
  simp only [writeSlot, slotAt, hsp, Frame.slotOffset, slot_disp hl]

theorem passes_loadSlot {base : UInt64} {l : Nat} {g : Gp} (hl : l < 2 ^ 28)
    (hsp : c.get Gp.sp = base) :
    Passes host code env (asm (Asm.load .b64 (.gp g.val) .rsp (Int32.ofNat (l * 8)))) s c w
      fun _ t c' w' => w' = w ∧ c' = c.set g (readSlot c base l) ∧ Keeps s t := by
  refine passes_emit (Asm.run_load s.asm .b64 _ (Reg.gp?_gp g) (j := Gp.sp) rfl) rfl ?_
    ⟨rfl, rfl, rfl, rfl, rfl, rfl⟩
  simp only [Exec.step, Exec.load?]
  rw [if_neg (by decide)]
  simp only [readSlot, slotAt, hsp, slot_disp hl, Exec.lowBits_b64]

/-! ### Agreement -/

section

variable (env : Env) (σ : Nat → UInt64) (known : Nat → Prop) (base : UInt64) (l : Nat) (g : Gp)
  (s : State) (c : Cpu)

/-- Registers, slots and dirty bits stand for the values `σ` of the known locals. -/
structure Agrees : Prop where
  valid : s.regs.Valid
  allocatable : s.regs.allocatable = allocatableSet
  sp : c.get Gp.sp = base
  owner_lt : ∀ g l, s.regs.owners.get g = some l → l < env.func.localCount
  known_lt : ∀ l, known l → l < env.func.localCount
  held : ∀ g l, s.regs.owners.get g = some l → known l → c.get g = σ l
  unique : ∀ g g' l, s.regs.owners.get g = some l → s.regs.owners.get g' = some l → known l → g = g'
  saved : ∀ l, known l → s.dirty.contains l = false → readSlot c base l = σ l
  dirty_held : ∀ l, known l → s.dirty.contains l = true → ∃ g, s.regs.owners.get g = some l
  dirty_out : ∀ l, s.dirty.contains l = true → (env.liveness.after s.block).contains l = false
  fits : s.dirty.Fits env.func.localCount

/-- Between operations registers have known owners, and no old register waits to be given up. -/
structure Settled : Prop extends Agrees env σ known base s c where
  owner_known : ∀ g l, s.regs.owners.get g = some l → known l
  stale : s.stale = none

/-- In the middle of a definition: the local has a new register, and the old one, if it is being
read, waits to be given up. -/
structure Pending : Prop where
  agrees : Agrees env σ (fun k => known k ∧ k ≠ l) base s c
  lt : l < env.func.localCount
  owner : s.regs.owners.get g = some l
  owner_known : ∀ q k, s.regs.owners.get q = some k → k ≠ l → known k
  old : ∀ q, s.regs.owners.get q = some l → q = g ∨ s.stale = some (.gp q.val)
  stale : ∀ r, s.stale = some r → ∃ q : Gp, r = .gp q.val ∧ q ≠ g ∧ s.regs.owners.get q = some l

end

variable {σ : Nat → UInt64} {known : Nat → Prop} {base : UInt64} {l : Nat} {g : Gp}

section

variable (h : Agrees env σ known base s c)

include h

theorem Agrees.forget (hk : ∀ l, known' l → known l) : Agrees env σ known' base s c :=
  { h with
    known_lt := fun l hl => h.known_lt l (hk l hl)
    held := fun g l ho hl => h.held g l ho (hk l hl)
    unique := fun g g' l ho ho' hl => h.unique g g' l ho ho' (hk l hl)
    saved := fun l hl => h.saved l (hk l hl)
    dirty_held := fun l hl => h.dirty_held l (hk l hl) }

/-- Agreement is about owners, dirty bits, registers and slots. -/
theorem Agrees.transfer (hvalid : t.regs.Valid) (hfile : t.regs.allocatable = s.regs.allocatable)
    (howners : t.regs.owners = s.regs.owners)
    (hdirty : t.dirty = s.dirty) (hblock : t.block = s.block) (hsp : c'.get Gp.sp = c.get Gp.sp)
    (hregs : ∀ g l, s.regs.owners.get g = some l → known l → c'.get g = c.get g)
    (hstack : c'.stack = c.stack) : Agrees env σ known base t c' where
  valid := hvalid
  allocatable := hfile.trans h.allocatable
  sp := hsp.trans h.sp
  owner_lt g l ho := h.owner_lt g l (howners ▸ ho)
  known_lt := h.known_lt
  held g l ho hl := by
    rw [howners] at ho
    rw [hregs g l ho hl, h.held g l ho hl]
  unique g g' l ho ho' := h.unique g g' l (howners ▸ ho) (howners ▸ ho')
  saved l hl hd := by
    rw [readSlot, hstack]
    exact h.saved l hl (hdirty ▸ hd)
  dirty_held l hl hd := by
    rw [howners]
    exact h.dirty_held l hl (hdirty ▸ hd)
  dirty_out l hd := by
    rw [hblock]
    exact h.dirty_out l (hdirty ▸ hd)
  fits := hdirty ▸ h.fits

theorem Agrees.congr (hk : Keeps s t) (hsp : c'.get Gp.sp = c.get Gp.sp)
    (hregs : ∀ g l, s.regs.owners.get g = some l → known l → c'.get g = c.get g)
    (hstack : c'.stack = c.stack) : Agrees env σ known base t c' :=
  h.transfer (hk.regs ▸ h.valid) (congrArg _ hk.regs)
    (congrArg _ hk.regs) hk.dirty hk.block hsp hregs hstack

end

theorem Settled.congr (h : Settled env σ known base s c) (hk : Keeps s t)
    (hsp : c'.get Gp.sp = c.get Gp.sp)
    (hregs : ∀ g l, s.regs.owners.get g = some l → c'.get g = c.get g)
    (hstack : c'.stack = c.stack) :
    Settled env σ known base t c' where
  toAgrees := h.toAgrees.congr hk hsp (fun g l ho _ => hregs g l ho) hstack
  owner_known g l ho := h.owner_known g l (hk.regs ▸ ho)
  stale := hk.stale.trans h.stale

/-- A local becomes known when it has one register, and its slot too unless it is dirty. -/
theorem Agrees.learn {σ' : Nat → UInt64} (h : Agrees env σ (fun k => known k ∧ k ≠ l) base s c)
    (hl : l < env.func.localCount) (howner : ∀ q, s.regs.owners.get q = some l ↔ q = g)
    (hvalue : c.get g = σ' l) (hslot : s.dirty.contains l = false → readSlot c base l = σ' l)
    (hσ : ∀ k, k ≠ l → σ' k = σ k) (hknown : ∀ k, known' k → k ≠ l → known k) :
    Agrees env σ' known' base s c := by
  have hold : ∀ k, known' k → k ≠ l → known k ∧ k ≠ l := fun k hk hne => ⟨hknown k hk hne, hne⟩
  refine { h with
    known_lt := ?known_lt, held := ?held, unique := ?unique, saved := ?saved, dirty_held := ?dirty }
  case known_lt =>
    intro k hk
    by_cases hkl : k = l
    · exact hkl ▸ hl
    · exact h.known_lt k (hold k hk hkl)
  case held =>
    intro q k ho hk
    by_cases hkl : k = l
    · subst hkl
      rw [(howner q).mp ho, hvalue]
    · rw [hσ k hkl, h.held q k ho (hold k hk hkl)]
  case unique =>
    intro q q' k ho ho' hk
    by_cases hkl : k = l
    · subst hkl
      rw [(howner q).mp ho, (howner q').mp ho']
    · exact h.unique q q' k ho ho' (hold k hk hkl)
  case saved =>
    intro k hk hd
    by_cases hkl : k = l
    · subst hkl
      exact hslot hd
    · rw [hσ k hkl, h.saved k (hold k hk hkl) hd]
  case dirty =>
    intro k hk hd
    by_cases hkl : k = l
    · exact ⟨g, hkl ▸ (howner g).mpr rfl⟩
    · exact h.dirty_held k (hold k hk hkl) hd

/-! ### Taking registers -/

/-- What is left alone while sources are loaded: locked registers, those that are never allocated,
and the block at hand. -/
structure Steady (s t : State) (c c' : Cpu) : Prop where
  block : t.block = s.block
  locked : ∀ g, s.regs.locks.get g ≠ 0 →
    t.regs.locks.get g ≠ 0 ∧ t.regs.owners.get g = s.regs.owners.get g ∧ c'.get g = c.get g
  fixed : ∀ g, allocatableSet.has g = false → c'.get g = c.get g

theorem Steady.refl (s : State) (c : Cpu) : Steady s s c c :=
  ⟨rfl, fun _ h => ⟨h, rfl, rfl⟩, fun _ _ => rfl⟩

theorem Steady.trans {u : State} {c'' : Cpu} (h : Steady s t c c') (h' : Steady t u c' c'') :
    Steady s u c c'' where
  block := h'.block.trans h.block
  locked g hg := by
    obtain ⟨hl, ho, hc⟩ := h.locked g hg
    obtain ⟨hl', ho', hc'⟩ := h'.locked g hl
    exact ⟨hl', ho'.trans ho, hc'.trans hc⟩
  fixed g hg := (h'.fixed g hg).trans (h.fixed g hg)

section

variable (s : State) (c : Cpu) (base : UInt64) (n l : Nat) (g : Gp) (t : State) (c' : Cpu)

/-- The owner of a register has been stored if it was dirty. -/
structure Spilled (owner : Option Nat) : Prop where
  block : t.block = s.block
  stale : t.stale = s.stale
  regs : c'.regs = c.regs
  fits : t.dirty.Fits n
  dirty : ∀ k, t.dirty.contains k = (s.dirty.contains k && !decide (owner = some k))
  slot : ∀ k, k < n → readSlot c' base k =
    if owner = some k ∧ s.dirty.contains k = true then c.get g else readSlot c base k

/-- What taking the register `g` for `l` does: its owner loses it and is stored if need be. -/
structure Allocated : Prop extends Spilled s c base n g t c' (s.regs.owners.get g) where
  allocatable : allocatableSet.has g = true
  unlocked : s.regs.locks.get g = 0
  owners : t.regs.owners = s.regs.owners.set g (some l)
  locks : t.regs.locks = s.regs.locks.set g 0
  valid : t.regs.Valid
  file : t.regs.allocatable = s.regs.allocatable

end

variable (hn : env.func.localCount ≤ 2 ^ 28)

include hn in
/-- Storing an owner that loses its register. -/
theorem passes_spill (hk : k < env.func.localCount)
    (hsp : c.get Gp.sp = base) (hfit : s.dirty.Fits env.func.localCount) :
    Passes host code env (spill k (.gp g.val)) s c w fun _ t c' w' =>
      w' = w ∧ t.regs = s.regs ∧ Spilled s c base env.func.localCount g t c' (some k) := by
  refine leads_get_bind ?_
  split
  next hdirty =>
    refine Passes.bind (passes_storeSlot (hk.trans_le hn) hsp) ?_
    rintro _ t c' w' ⟨rfl, rfl, hkeep⟩
    refine leads_modify ⟨_, _, rfl, rfl, hkeep.regs, hkeep.block, hkeep.stale, rfl, ?_, ?_, ?_⟩
    · rw [hkeep.dirty]
      exact hfit.erase k
    · intro j
      simp [hkeep.dirty, eq_comm]
    · intro j hj
      rw [readSlot_writeSlot (hk.trans_le hn) (hj.trans_le hn)]
      by_cases h : k = j
      · simp [← h, hdirty]
      · simp [h, Ne.symm h]
  next hdirty =>
    refine passes_pure ⟨rfl, rfl, rfl, rfl, rfl, hfit, fun j => ?_, fun j _ => ?_⟩
    all_goals
      by_cases h : k = j
      · simp [← h, hdirty]
      · simp [h]

include hn in
theorem passes_allocate (h : Agrees env σ known base s c) :
    Passes host code env (allocate l) s c w fun r t c' w' =>
      w' = w ∧ ∃ g, r = .gp g.val ∧ Allocated s c base env.func.localCount l g t c' := by
  refine leads_get_bind (leads_liftRegs_bind fun found hfound => ?_)
  obtain ⟨⟨r, evicted⟩, regs⟩ := found
  obtain ⟨g, rfl, rfl, htake⟩ := h.valid.allocate hfound
  have hg : allocatableSet.has g = true := h.allocatable ▸ htake.allocatable
  refine leads_modify_bind ?_
  cases howner : s.regs.owners.get g with
  | none =>
    refine passes_pure ⟨rfl, g, rfl, ⟨rfl, rfl, rfl, h.fits, ?_, ?_⟩, hg, htake.unlocked,
      htake.owners, htake.locks, htake.valid, htake.allocatable_eq⟩ <;> simp [howner]
  | some k =>
    refine Passes.bind (passes_spill hn (h.owner_lt g k howner) h.sp h.fits) ?_
    rintro _ t c' w' ⟨rfl, hregs, hsp⟩
    refine passes_pure ⟨rfl, g, rfl,
      { hsp with dirty := howner ▸ hsp.dirty, slot := howner ▸ hsp.slot }, hg, htake.unlocked,
      hregs ▸ htake.owners, hregs ▸ htake.locks, hregs ▸ htake.valid, hregs ▸ htake.allocatable_eq⟩

/-- A known local has its value in its slot when its register has been stored. -/
theorem Agrees.stored (h : Agrees env σ known base s c)
    (hsp : Spilled s c base env.func.localCount g t c' (s.regs.owners.get g)) :
    Agrees env σ known base { t with regs := s.regs } c' := by
  have hget : ∀ q, c'.get q = c.get q := Cpu.get_congr hsp.regs
  have hwas : ∀ k, t.dirty.contains k = true → s.dirty.contains k = true := by
    intro k hd
    rw [hsp.dirty, Bool.and_eq_true] at hd
    exact hd.1
  refine { h with
    sp := (hget _).trans h.sp
    held := fun q k ho hk => (hget q).trans (h.held q k ho hk)
    saved := fun k hk hd => ?_
    dirty_held := fun k hk hd => h.dirty_held k hk (hwas k hd)
    dirty_out := fun k hd => hsp.block ▸ h.dirty_out k (hwas k hd)
    fits := hsp.fits }
  rw [hsp.slot k (h.known_lt k hk)]
  rw [hsp.dirty] at hd
  split
  next hout => exact h.held g k hout.1 hk
  next hin =>
    refine h.saved k hk ?_
    by_contra hdirty
    rw [Bool.not_eq_false] at hdirty
    simp [hdirty] at hd hin
    exact hin hd

/-- The new owner is not known yet. -/
theorem Allocated.agrees (hal : Allocated s c base env.func.localCount l g t c')
    (h : Agrees env σ known base s c) (hl : l < env.func.localCount) (hnew : ¬known l) :
    Agrees env σ known base t c' := by
  have hst := h.stored hal.toSpilled
  have howner : ∀ q k, t.regs.owners.get q = some k → known k →
      q ≠ g ∧ s.regs.owners.get q = some k := by
    intro q k ho hk
    rw [hal.owners, get_set] at ho
    split at ho
    · cases ho
      exact absurd hk hnew
    next hne => exact ⟨hne, ho⟩
  refine { hst with
    valid := hal.valid
    allocatable := hal.file.trans h.allocatable
    owner_lt := fun q k ho => ?_
    held := fun q k ho hk => hst.held q k (howner q k ho hk).2 hk
    unique := fun q q' k ho ho' hk => h.unique q q' k (howner q k ho hk).2 (howner q' k ho' hk).2 hk
    dirty_held := fun k hk hd => ?_ }
  · rw [hal.owners, get_set] at ho
    split at ho
    · cases ho
      exact hl
    · exact h.owner_lt q k ho
  · obtain ⟨q, hq⟩ := hst.dirty_held k hk hd
    simp only [hal.dirty, Bool.and_eq_true, Bool.not_eq_true', decide_eq_false_iff_not] at hd
    refine ⟨q, ?_⟩
    rw [hal.owners, get_set_ne _ (by rintro rfl; exact hd.2 hq), hq]

/-! ### Sources -/

theorem passes_lockGp : Passes host code env (lock (.gp g.val)) s c w fun _ t c' w' =>
    c' = c ∧ w' = w ∧ ∃ n, n ≠ 0 ∧
      t = { s with regs := { s.regs with locks := s.regs.locks.set g n } } := by
  refine leads_get_bind (leads_liftRegs_bind fun regs hregs => ?_)
  obtain ⟨g', heq, -, n, hn, rfl⟩ := lock_eq_ok hregs
  cases Reg.gp_injective heq
  exact leads_modify ⟨c, w, rfl, rfl, rfl, n, hn, rfl⟩

/-- A locked register with the value of a local. -/
structure Loaded (σ : Nat → UInt64) (l : Nat) (g : Gp) (t : State) (c' : Cpu) : Prop where
  owner : t.regs.owners.get g = some l
  locked : t.regs.locks.get g ≠ 0
  value : c'.get g = σ l

/-- Locking the register of a local. -/
theorem Settled.passes_lock (h : Settled env σ known base s c) (ho : s.regs.owners.get g = some l) :
    Passes host code env (do lock (Reg.gp g.val); return Reg.gp g.val) s c w fun r t c' w' =>
      w' = w ∧ Settled env σ known base t c' ∧ Steady s t c c' ∧
        ∃ g : Gp, r = .gp g.val ∧ Loaded σ l g t c' := by
  refine passes_lockGp.bind ?_
  rintro _ t c' w' ⟨rfl, rfl, n, hn, rfl⟩
  refine passes_pure ⟨rfl, ?_, ?_, g, rfl, ho, ?_, h.held g l ho (h.owner_known g l ho)⟩
  · refine ⟨h.toAgrees.transfer (h.valid.lock (h.valid.owned_of_owner ho) n) rfl rfl rfl rfl rfl
      (fun _ _ _ _ => rfl) rfl, h.owner_known, h.stale⟩
  · refine ⟨rfl, fun q hq => ⟨?_, rfl, rfl⟩, fun _ _ => rfl⟩
    simp only [get_set]
    split
    · exact hn
    · exact hq
  · simp [hn]

include hn in
theorem Settled.passes_useLocal (h : Settled env σ known base s c) (hl : known l) :
    Passes host code env (useLocal l) s c w fun r t c' w' =>
      w' = w ∧ Settled env σ known base t c' ∧ Steady s t c c' ∧
        ∃ g : Gp, r = .gp g.val ∧ Loaded σ l g t c' := by
  refine leads_get_bind ?_
  split
  next r hr =>
    obtain ⟨g, rfl, -, ho⟩ := holder?_eq_some hr
    exact h.passes_lock ho
  next hnone =>
    -- the local has no register, so its slot has the value
    have hfree := h.valid.holder?_eq_none hnone
    have hlt := h.known_lt l hl
    have hclean : s.dirty.contains l = false := by
      by_contra hd
      obtain ⟨g, hg⟩ := h.dirty_held l hl (by simpa using hd)
      exact hfree g hg
    have hforget : Agrees env σ (fun k => known k ∧ k ≠ l) base s c :=
      h.toAgrees.forget fun _ hk => hk.1
    refine Passes.bind (passes_allocate hn hforget) ?_
    rintro r t c' w' ⟨rfl, g, rfl, hal⟩
    have hagree := hal.agrees hforget hlt fun hk => hk.2 rfl
    have hslot : readSlot c' base l = σ l := by
      rw [hal.slot l hlt, if_neg fun hd => hfree g hd.1]
      exact h.saved l hl hclean
    refine leads_read_bind (Passes.bind (passes_loadSlot (hlt.trans_le hn) hagree.sp)
      fun _ u c'' w'' hload => ?_)
    obtain ⟨rfl, rfl, hkeep⟩ := hload
    have hne : Gp.sp ≠ g := by
      rintro rfl
      exact absurd hal.allocatable (by decide)
    have howners : u.regs.owners = s.regs.owners.set g (some l) := by rw [hkeep.regs, hal.owners]
    have hother : ∀ q k, q ≠ g → u.regs.owners.get q = some k → s.regs.owners.get q = some k := by
      intro q k hq ho
      rwa [howners, get_set_ne _ hq] at ho
    have howner : ∀ q, u.regs.owners.get q = some l ↔ q = g := by
      intro q
      rw [howners, get_set]
      split
      next hq => simp [hq]
      next hq => simp [hq, hfree q]
    have hagree' : Agrees env σ (fun k => known k ∧ k ≠ l) base u
        (c'.set g (readSlot c' base l)) := by
      refine hagree.congr hkeep (Cpu.get_set_ne _ _ hne) (fun q k ho hk => ?_) rfl
      refine Cpu.get_set_ne _ _ fun he => hk.2 ?_
      rw [he, hal.owners, get_set_self] at ho
      exact (Option.some.inj ho).symm
    have hsettled : Settled env σ known base u (c'.set g (readSlot c' base l)) := by
      refine ⟨hagree'.learn hlt howner (by rw [Cpu.get_set_self, hslot]) (fun _ => hslot)
        (fun _ _ => rfl) fun _ hk _ => hk, fun q k ho => ?_, ?_⟩
      · by_cases hq : q = g
        · subst hq
          rw [howners, get_set_self] at ho
          exact Option.some.inj ho ▸ hl
        · exact h.owner_known q k (hother q k hq ho)
      · rw [hkeep.stale, hal.stale, h.stale]
    refine (hsettled.passes_lock (l := l) ?_).mono fun r v c'' w'' hpost => ?_
    · rw [howners, get_set_self]
    · obtain ⟨rfl, hset, hsteady, hloaded⟩ := hpost
      refine ⟨rfl, hset, .trans ?_ hsteady, hloaded⟩
      refine ⟨hkeep.block.trans hal.block, fun q hq => ?_, fun q hq => ?_⟩
      · have hqg : q ≠ g := fun he => hq (he ▸ hal.unlocked)
        rw [howners, hkeep.regs, hal.locks, get_set_ne _ hqg, get_set_ne _ hqg,
          Cpu.get_set_ne _ _ hqg, Cpu.get, hal.regs]
        exact ⟨hq, rfl, rfl⟩
      · have hqg : q ≠ g := by
          rintro rfl
          rw [hal.allocatable] at hq
          cases hq
        rw [Cpu.get_set_ne _ _ hqg, Cpu.get_congr hal.regs]

/-! ### Operands -/

def Yields {α : Type} (env : Env) (x : Gen α) (s : State) (R : α → Prop) : Prop :=
  ∀ a t, (x env s : Except CompileError α × State) = (.ok a, t) → R a ∧ t = s

theorem Yields.bind {β : Type} {x : Gen α} {f : α → Gen β} {R : α → Prop} {p : Exec.Status ω}
    {post : β → State → Exec.Status ω → Prop} (hx : Yields env x s R)
    (hf : ∀ a, R a → Leads host code env (f a) s p post) :
    Leads host code env (x >>= f) s p post := by
  intro b u hrun
  obtain ⟨a, t, heq, hrest⟩ := ok_of_bind hrun
  obtain ⟨ha, rfl⟩ := hx a t heq
  exact hf a ha b u hrest

theorem yields_option {x : Gen α} {o : Option α}
    (hsome : ∀ a, o = some a → x env s = (.ok a, s))
    (hnone : o = none → ∃ e, x env s = (.error e, s)) :
    Yields env x s fun a => o = some a := by
  intro a t hrun
  cases o with
  | some b =>
    rw [hsome b rfl] at hrun
    cases hrun
    exact ⟨rfl, rfl⟩
  | none =>
    obtain ⟨e, he⟩ := hnone rfl
    rw [he] at hrun
    cases hrun

theorem yields_localOf (dest : OperandId) :
    Yields env (localOf dest) s fun l => (env.func.operand dest).local? = some l := by
  have hread : (read : Gen Env) env s = (.ok env, s) := rfl
  exact yields_option (fun l hl => by simp only [localOf, run_bind, hread, hl]; rfl)
    fun hl => ⟨_, by simp only [localOf, run_bind, hread, hl]; rfl⟩

theorem yields_sourceId (op : Operation) (i : Nat) :
    Yields env (sourceId op i) s fun id => op.source? i = some id :=
  yields_option (fun id hid => by rw [sourceId, hid]; rfl) fun hid =>
    ⟨_, by rw [sourceId, hid]; rfl⟩

theorem yields_destOf (op : Operation) : Yields env (destOf op) s fun d => op.dest = some d :=
  yields_option (fun d hd => by rw [destOf, hd]; rfl) fun hd => ⟨_, by rw [destOf, hd]; rfl⟩

def Holds (c : Cpu) : Value → UInt64 → Prop
  | .imm v, x => v = x
  | .reg r, x => ∃ g : Gp, r = .gp g.val ∧ allocatableSet.has g = true ∧ c.get g = x

def Pinned (s : State) (v : Value) : Prop :=
  ∀ g : Gp, v = .reg (.gp g.val) → s.regs.locks.get g ≠ 0

theorem Steady.pinned (h : Steady s t c c') (hv : Pinned s v) : Pinned t v :=
  fun g hg => (h.locked g (hv g hg)).1

theorem Steady.holds {x : UInt64} (h : Steady s t c c') (hp : Pinned s v) (hv : Holds c v x) :
    Holds c' v x := by
  cases v with
  | imm _ => exact hv
  | reg r =>
    obtain ⟨g, rfl, hg, hx⟩ := hv
    exact ⟨g, rfl, hg, (h.locked g (hp g rfl)).2.2.trans hx⟩

structure Fetched (f : Function) (frame : IR.Frame) (id : OperandId) (v : Value) (t : State)
    (c' : Cpu) : Prop where
  holds : Holds c' v (IR.Eval.operandValue f frame id)
  pinned : Pinned t v
  form : (∃ r, v = .reg r) ↔ ∃ l, (f.operand id).kind = .local_ l

include hn in
theorem Settled.passes_operandValue {id : OperandId}
    (h : Settled env (fun l => frame.getD l 0) known base s c)
    (hid : ∀ l, (env.func.operand id).local? = some l → known l) :
    Passes host code env (operandValue id) s c w fun v t c' w' =>
      w' = w ∧ Settled env (fun l => frame.getD l 0) known base t c' ∧ Steady s t c c' ∧
        Fetched env.func frame id v t c' := by
  refine leads_read_bind ?_
  split
  case h_1 _ hkind | h_2 hkind =>
    refine passes_pure ⟨rfl, h, .refl s c, ?_, ?_, ?_⟩
    · simp [Holds, IR.Eval.operandValue, hkind]
    · rintro g ⟨⟩
    · simp [hkind]
  next l hkind =>
    have hl : known l := hid l (by simp [IR.Operand.local?, hkind])
    refine (h.passes_useLocal hn hl).bind ?_
    rintro r t c' w' ⟨rfl, hset, hsteady, g, rfl, hload⟩
    refine passes_pure ⟨rfl, hset, hsteady, ?_, ?_, ?_⟩
    · refine ⟨g, rfl, hset.allocatable ▸ hset.valid.allocatable_of_owner hload.owner, ?_⟩
      simp [IR.Eval.operandValue, hkind, hload.value]
    · intro q hq
      cases Reg.gp_injective (Value.reg.inj hq)
      exact hload.locked
    · simp [hkind]
  · exact leads_throw

def KnowsSources (f : Function) (known : Nat → Prop) (op : Operation) : Prop :=
  ∀ id ∈ op.sources, ∀ l, (f.operand id).local? = some l → known l

include hn in
theorem Settled.passes_source {op : Operation} (i : Nat)
    (h : Settled env (fun l => frame.getD l 0) known base s c)
    (hop : KnowsSources env.func known op) :
    Passes host code env (source op i) s c w fun v t c' w' =>
      w' = w ∧ Settled env (fun l => frame.getD l 0) known base t c' ∧ Steady s t c c' ∧
        ∃ id, op.source? i = some id ∧ Fetched env.func frame id v t c' := by
  refine (yields_sourceId op i).bind fun id hid => ?_
  refine (h.passes_operandValue hn (hop id (List.mem_of_getElem? hid))).mono ?_
  rintro v t c' w' ⟨rfl, hset, hsteady, hfetch⟩
  exact ⟨rfl, hset, hsteady, id, hid, hfetch⟩

/-! ### Definitions -/

/-- A register whose owner is unknown or stored can be given up. -/
theorem Agrees.disown (h : Agrees env σ known base s c) (ho : s.regs.owners.get g = some k)
    (hk : known k → s.dirty.contains k = false) :
    Agrees env σ known base { s with regs := s.regs.disown g } c := by
  have howner : ∀ q j, (s.regs.disown g).owners.get q = some j → s.regs.owners.get q = some j :=
    fun q j hj => (owner_of_disown hj).2
  refine { h with
    valid := h.valid.disown g
    owner_lt := fun q j hj => h.owner_lt q j (howner q j hj)
    held := fun q j hj => h.held q j (howner q j hj)
    unique := fun q q' j hj hj' => h.unique q q' j (howner q j hj) (howner q' j hj')
    dirty_held := fun j hj hd => ?_ }
  obtain ⟨q, hq⟩ := h.dirty_held j hj hd
  refine ⟨q, ?_⟩
  have hne : q ≠ g := by
    rintro rfl
    rw [ho] at hq
    cases hq
    rw [hk hj] at hd
    cases hd
  simpa only [RegisterFile.disown, get_set_ne _ hne] using hq

theorem Pending.congr (h : Pending env σ known base l g s c) (hk : Keeps s t)
    (hsp : c'.get Gp.sp = c.get Gp.sp)
    (hregs : ∀ q, allocatableSet.has q = true → q ≠ g → c'.get q = c.get q)
    (hstack : c'.stack = c.stack) : Pending env σ known base l g t c' where
  agrees := by
    refine h.agrees.congr hk hsp (fun q k ho hkn => hregs q ?_ ?_) hstack
    · exact h.agrees.allocatable ▸ h.agrees.valid.allocatable_of_owner ho
    · rintro rfl
      exact hkn.2 (Option.some.inj (ho.symm.trans h.owner))
  lt := h.lt
  owner := hk.regs ▸ h.owner
  owner_known q k ho := h.owner_known q k (hk.regs ▸ ho)
  old q ho := hk.stale ▸ h.old q (hk.regs ▸ ho)
  stale r hr := hk.regs ▸ h.stale r (hk.stale ▸ hr)

include hn in
/-- The local takes its new register; an old one it has left is locked and becomes the stale one. -/
theorem passes_take (h : Agrees env σ (fun k => known k ∧ k ≠ l) base s c)
    (hdest : (env.func.operand dest).local? = some l) (hl : l < env.func.localCount)
    (hknown : ∀ q k, s.regs.owners.get q = some k → known k)
    (hold : ∀ q, s.regs.owners.get q = some l → s.regs.locks.get q ≠ 0 ∧ s.stale = some (.gp q.val))
    (hs : ∀ r, s.stale = some r → ∃ q : Gp, r = .gp q.val ∧ s.regs.owners.get q = some l) :
    Passes host code env (do let r ← allocate l; lock r; return r) s c w fun r t c' w' =>
      w' = w ∧ c'.regs = c.regs ∧ t.block = s.block ∧ ∃ l, ∃ g : Gp, r = .gp g.val ∧
        (env.func.operand dest).local? = some l ∧ s.regs.locks.get g = 0 ∧
        Pending env σ known base l g t c' := by
  refine (passes_allocate hn h).bind ?_
  rintro r t c' w' ⟨rfl, g, rfl, hal⟩
  have hagree := hal.agrees h hl fun hk => hk.2 rfl
  have howner : t.regs.owners.get g = some l := by rw [hal.owners, get_set_self]
  have hne : ∀ q, s.regs.owners.get q = some l → q ≠ g := fun q hq he =>
    (hold q hq).1 (he ▸ hal.unlocked)
  refine passes_lockGp.bind ?_
  rintro _ u c'' w'' ⟨rfl, rfl, n, hn, rfl⟩
  refine passes_pure ⟨rfl, hal.regs, hal.block, l, g, rfl, hdest, hal.unlocked, ?_, hl,
    howner, fun q k ho hk => ?_, fun q ho => ?_, fun r hr => ?_⟩
  · exact hagree.transfer (hagree.valid.lock (hagree.valid.owned_of_owner howner) n) rfl rfl rfl rfl
      rfl (fun _ _ _ _ => rfl) rfl
  · simp only [hal.owners, get_set] at ho
    split at ho
    · exact absurd (Option.some.inj ho).symm hk
    · exact hknown q k ho
  · simp only [hal.owners, get_set] at ho
    split at ho
    next hq => exact .inl hq
    · exact .inr (hal.stale.trans (hold q ho).2)
  · obtain ⟨q, rfl, hq⟩ := hs r (hal.stale.symm.trans hr)
    refine ⟨q, rfl, hne q hq, ?_⟩
    rw [hal.owners, get_set_ne _ (hne q hq), hq]

theorem passes_release (g : Gp) : Passes host code env (release (.gp g.val)) s c w fun _ t c' w' =>
      t = { s with regs := s.regs.disown g } ∧ c' = c ∧ w' = w := by
  refine leads_get_bind (leads_liftRegs_bind fun regs hregs => ?_)
  obtain ⟨g', heq, -, rfl⟩ := release_eq_ok hregs
  cases Reg.gp_injective heq
  exact leads_modify ⟨c, w, rfl, rfl, rfl, rfl⟩

include hn in
/-- A definition starts: the local gets a register that nothing reads. -/
theorem Settled.passes_define (h : Settled env σ known base s c)
    (hlt : ∀ l, (env.func.operand dest).local? = some l → l < env.func.localCount) :
    Passes host code env (define dest) s c w fun r t c' w' =>
      w' = w ∧ c'.regs = c.regs ∧ t.block = s.block ∧ ∃ l, ∃ g : Gp, r = .gp g.val ∧
        (env.func.operand dest).local? = some l ∧ s.regs.locks.get g = 0 ∧
        Pending env σ known base l g t c' := by
  refine (yields_localOf dest).bind fun l hl => leads_get_bind ?_
  have hforget : Agrees env σ (fun k => known k ∧ k ≠ l) base s c :=
    h.toAgrees.forget fun _ hk => hk.1
  have hstale : ∀ r, s.stale ≠ some r := by simp [h.stale]
  split
  next r hr =>
    obtain ⟨q, rfl, howned, hq⟩ := holder?_eq_some hr
    have honly : ∀ q', s.regs.owners.get q' = some l → q' = q := fun q' hq' =>
      h.unique q' q l hq' hq (h.owner_known q l hq)
    refine leads_get_bind ?_
    split
    next hlocked =>
      -- the old register is being read and stays until the definition ends
      rw [isLocked_gp howned, bne_iff_ne] at hlocked
      refine passes_take (s := { s with stale := some (.gp q.val) }) hn
        (hforget.transfer h.valid rfl rfl rfl rfl rfl (fun _ _ _ _ => rfl) rfl) hl (hlt l hl)
        h.owner_known (fun q' hq' => ?_) fun r hr => ?_
      · rw [honly q' hq']
        exact ⟨hlocked, rfl⟩
      · cases hr
        exact ⟨q, rfl, hq⟩
    next hunlocked =>
      rw [isLocked_gp howned, bne_iff_ne, not_not] at hunlocked
      refine (passes_release q).bind ?_
      rintro _ t c' w' ⟨rfl, rfl, rfl⟩
      refine (passes_take hn (hforget.disown hq fun hk => absurd rfl hk.2) hl (hlt l hl)
        (fun q' k ho => h.owner_known q' k (owner_of_disown ho).2) (fun q' ho => ?_)
        fun r hr => absurd hr (hstale r)).mono ?_
      · obtain ⟨hne, ho⟩ := owner_of_disown ho
        exact absurd (honly q' ho) hne
      · rintro r t c' w' ⟨rfl, hregs, hblock, l, g, rfl, hl, hfree, hpend⟩
        refine ⟨rfl, hregs, hblock, l, g, rfl, hl, ?_, hpend⟩
        simp only [RegisterFile.disown, get_set] at hfree
        split at hfree
        next hgq => rw [hgq, hunlocked]
        · exact hfree
  next hnone =>
    have hfree := h.valid.holder?_eq_none hnone
    exact passes_take hn hforget hl (hlt l hl) h.owner_known (fun q ho => absurd ho (hfree q))
      fun r hr => absurd hr (hstale r)

section

variable (hfits : dirty.Fits env.func.localCount)
  (hdirty : ∀ k, k ≠ l → dirty.contains k = s.dirty.contains k)
  (hout : dirty.contains l = true → (env.liveness.after s.block).contains l = false)
  (hregs : c'.regs = c.regs)
  (hother : ∀ k, k ≠ l → k < env.func.localCount → readSlot c' base k = readSlot c base k)

include hfits hdirty hout hregs hother

/-- The dirty bit and the slot of an unknown local may change. -/
theorem Agrees.redirty (h : Agrees env σ known base s c) (hl : ¬known l) :
    Agrees env σ known base { s with dirty } c' := by
  have hne : ∀ k, known k → k ≠ l := fun k hk he => hl (he ▸ hk)
  have hget : ∀ q, c'.get q = c.get q := Cpu.get_congr hregs
  refine { h with
    sp := (hget _).trans h.sp
    held := fun q k ho hk => (hget q).trans (h.held q k ho hk)
    saved := fun k hk hd => ?_
    dirty_held := fun k hk hd => h.dirty_held k hk (by rw [← hdirty k (hne k hk), hd])
    dirty_out := fun k hd => ?_
    fits := hfits }
  · rw [hother k (hne k hk) (h.known_lt k hk)]
    exact h.saved k hk (by rw [← hdirty k (hne k hk), hd])
  · by_cases hkl : k = l
    · subst hkl
      exact hout hd
    · exact h.dirty_out k (by rw [← hdirty k hkl, hd])

/-- With its value in the one register it has left, the local becomes known. -/
theorem Pending.settled (h : Pending env σ known base l g s c) (hstale : s.stale = none)
    (hslot : dirty.contains l = false → readSlot c' base l = c.get g) :
    Settled env (Function.update σ l (c.get g)) (fun k => known k ∨ k = l) base
      { s with dirty } c' := by
  have hagree := h.agrees.redirty hfits hdirty hout hregs hother fun hk => hk.2 rfl
  refine ⟨hagree.learn h.lt (fun q => ⟨fun ho => ?_, fun hq => hq ▸ h.owner⟩) ?_ ?_ ?_ ?_,
    fun q k ho => ?_, hstale⟩
  · rcases h.old q ho with hq | hq
    · exact hq
    · rw [hstale] at hq
      cases hq
  · rw [Cpu.get_congr hregs, Function.update_self]
  · rwa [Function.update_self]
  · exact fun k hk => Function.update_of_ne hk _ _
  · exact fun k hk hne => hk.resolve_right hne
  · by_cases hk : k = l
    · exact .inr hk
    · exact .inl (h.owner_known q k ho hk)

end

/-- A definition ends: the value is in the register, and in the slot if it is live after the
block. -/
theorem Pending.passes_finishDef (hn : env.func.localCount ≤ 2 ^ 28)
    (h : Pending env σ known base l g s c) (hdest : (env.func.operand dest).local? = some l) :
    Passes host code env (finishDef dest (.gp g.val)) s c w fun _ t c' w' =>
      w' = w ∧ c'.regs = c.regs ∧ t.block = s.block ∧
        Settled env (Function.update σ l (c.get g)) (fun k => known k ∨ k = l) base t c' := by
  have hrest : ∀ t, Pending env σ known base l g t c → t.stale = none → t.block = s.block →
      Passes host code env (do
        if ((← read).liveness.after (← get).block).contains l then
          storeSlot l (.gp g.val)
          modify fun s => { s with dirty := s.dirty.erase l }
        else
          modify fun s => { s with dirty := s.dirty.insert l }) t c w fun _ t c' w' =>
      w' = w ∧ c'.regs = c.regs ∧ t.block = s.block ∧
        Settled env (Function.update σ l (c.get g)) (fun k => known k ∨ k = l) base t c' := by
    intro t ht hstale hblock
    refine leads_read_bind (leads_get_bind ?_)
    split
    next hlive =>
      refine (passes_storeSlot (h.lt.trans_le hn) ht.agrees.sp).bind ?_
      rintro _ u c' w' ⟨rfl, rfl, hkeep⟩
      have hu : Pending env σ known base l g u c := ht.congr hkeep rfl (fun _ _ _ => rfl) rfl
      refine leads_modify
        ⟨_, _, rfl, rfl, rfl, hkeep.block.trans hblock, hu.settled ?_ ?_ ?_ rfl ?_ ?_ ?_⟩
      · exact hu.agrees.fits.erase l
      · intro k hk
        simp [hk]
      · simp
      · intro k hk hlt
        rw [readSlot_writeSlot (h.lt.trans_le hn) (hlt.trans_le hn), if_neg hk]
      · exact hkeep.stale.trans hstale
      · intro _
        rw [readSlot_writeSlot (h.lt.trans_le hn) (h.lt.trans_le hn), if_pos rfl]
    next hdead =>
      refine leads_modify ⟨_, _, rfl, rfl, rfl, hblock, ht.settled ?_ ?_ ?_ rfl ?_ hstale ?_⟩
      · exact ht.agrees.fits.insert l
      · intro k hk
        rw [ht.agrees.fits.contains_insert h.lt]
        simp [hk]
      · exact fun _ => by simpa using hdead
      · exact fun _ _ _ => rfl
      · intro hclean
        rw [ht.agrees.fits.contains_insert h.lt] at hclean
        simp at hclean
  refine (yields_localOf dest).bind fun l' hl' => leads_get_bind ?_
  obtain rfl := Option.some.inj (hdest.symm.trans hl')
  split
  next old hold =>
    obtain ⟨q, rfl, hqg, hq⟩ := h.stale old hold
    refine leads_modify_bind ((passes_release q).bind fun _ t c' w' hmid => ?_)
    obtain ⟨rfl, rfl, rfl⟩ := hmid
    refine hrest _ ?_ rfl rfl
    have hagree := h.agrees.disown hq fun hk => absurd rfl hk.2
    refine ⟨hagree.transfer hagree.valid rfl rfl rfl rfl rfl (fun _ _ _ _ => rfl) rfl, h.lt,
      ?_, ?_, ?_, ?_⟩
    · simpa only [RegisterFile.disown, get_set_ne _ hqg.symm] using h.owner
    · exact fun q' k ho => h.owner_known q' k (owner_of_disown ho).2
    · intro q' ho
      obtain ⟨hne, ho⟩ := owner_of_disown ho
      rcases h.old q' ho with hg | hs
      · exact .inl hg
      · rw [hold] at hs
        exact absurd (Reg.gp_injective (Option.some.inj hs)).symm hne
    · rintro r ⟨⟩
  next hnone => exact hrest s h hnone rfl

/-! ### Giving up registers for a call -/

section

variable (h : Settled env σ known base s c)

include hn h

/-- A local is stored and loses its register. -/
theorem Settled.passes_evict (ho : s.regs.owners.get g = some l) :
    Passes host code env (do spill l (.gp g.val); release (.gp g.val)) s c w fun _ t c' w' =>
      w' = w ∧ c'.regs = c.regs ∧ t.block = s.block ∧ t.regs = s.regs.disown g ∧
        Settled env σ known base t c' := by
  have hlt := h.owner_lt g l ho
  refine (passes_spill hn hlt h.sp h.fits).bind ?_
  rintro _ t c' w' ⟨rfl, hregs, hsp⟩
  refine (passes_release g).mono ?_
  rintro _ u c'' w'' ⟨rfl, rfl, rfl⟩
  have hagree := h.stored (ho ▸ hsp)
  rw [← hregs] at hagree
  refine ⟨rfl, hsp.regs, hsp.block, congrArg (·.disown g) hregs, ?_⟩
  refine ⟨hagree.disown (hregs ▸ ho) fun _ => ?_, fun q k hq => ?_, hsp.stale.trans h.stale⟩
  · rw [hsp.dirty]
    simp
  · have hq := (owner_of_disown hq).2
    rw [hregs] at hq
    exact h.owner_known q k hq

theorem Settled.passes_evictAll {todo : List (Reg × Nat)}
    (howners : ∀ r l, (r, l) ∈ todo → ∃ g : Gp, r = .gp g.val ∧ s.regs.owners.get g = some l)
    (hnodup : (todo.map Prod.fst).Nodup) :
    Passes host code env (todo.forM fun (r, i) => do spill i r; release r) s c w fun _ t c' w' =>
      w' = w ∧ c'.regs = c.regs ∧ t.block = s.block ∧ Settled env σ known base t c' ∧
        ∀ g l, t.regs.owners.get g = some l →
          s.regs.owners.get g = some l ∧ (Reg.gp g.val, l) ∉ todo := by
  induction todo generalizing s c with
  | nil => exact passes_pure ⟨rfl, rfl, rfl, h, fun g l ho => ⟨ho, List.not_mem_nil⟩⟩
  | cons e todo ih =>
    obtain ⟨r, k⟩ := e
    obtain ⟨g, rfl, hg⟩ := howners r k (.head _)
    rw [List.map_cons, List.nodup_cons] at hnodup
    refine (h.passes_evict hn hg).bind ?_
    rintro _ t c' w' ⟨rfl, hcregs, hblock, hregs, hset⟩
    refine (ih hset (fun r l hrl => ?_) hnodup.2).mono fun _ u c'' w'' hpost => ?_
    · obtain ⟨q, rfl, hq⟩ := howners r l (.tail _ hrl)
      refine ⟨q, rfl, ?_⟩
      have hne : q ≠ g := by
        rintro rfl
        exact hnodup.1 (List.mem_map.mpr ⟨_, hrl, rfl⟩)
      rw [hregs, RegisterFile.disown, get_set_ne _ hne, hq]
    · obtain ⟨rfl, hcregs', hblock', hset', hleft⟩ := hpost
      refine ⟨rfl, hcregs'.trans hcregs, hblock'.trans hblock, hset', fun q l ho => ?_⟩
      obtain ⟨ht, hnot⟩ := hleft q l ho
      rw [hregs] at ht
      obtain ⟨hne, hq⟩ := owner_of_disown ht
      refine ⟨hq, fun hmem => ?_⟩
      rcases List.mem_cons.mp hmem with heq | hmem
      · exact hne (Reg.gp_injective (Prod.mk.inj heq).1)
      · exact hnot hmem

/-- No register that a call may overwrite has an owner. -/
theorem Settled.passes_flush : Passes host code env flushCallerSaved s c w fun _ t c' w' =>
      w' = w ∧ c'.regs = c.regs ∧ t.block = s.block ∧ Settled env σ known base t c' ∧
        ∀ g l, t.regs.owners.get g = some l → callerSavedSet.has g = false := by
  refine leads_get_bind ?_
  refine (h.passes_evictAll hn (fun r l hrl => ?_) (nodup_ownedIn _)).mono fun _ t c' w' hpost => ?_
  · obtain ⟨g, hr, -, ho⟩ := h.valid.mem_ownedIn.mp hrl
    exact ⟨g, hr, ho⟩
  · obtain ⟨rfl, hregs, hblock, hset, hleft⟩ := hpost
    refine ⟨rfl, hregs, hblock, hset, fun g l ho => ?_⟩
    obtain ⟨hs, hnot⟩ := hleft g l ho
    by_contra hsaved
    exact hnot (h.valid.mem_ownedIn.mpr ⟨g, rfl, by simpa using hsaved, hs⟩)

end

end Codegen

end Dynarec.Host
