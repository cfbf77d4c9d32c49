import Dynarec.Host.Convention
import Mathlib.Data.List.Infix
import Mathlib.Data.List.Nodup
import Mathlib.Logic.Function.Iterate

/-!
# Ownership of registers

What the operations on a register file do to owners and locks. In a valid file only allocatable
registers are owned, the owned ones are those with an owner, and only they are locked; every
operation leaves a valid file valid.
-/

namespace Dynarec.Host

open RegisterFile Option RegSet

namespace GpMap

variable {α : Type}

theorem get_set (m : GpMap α) (r q : Gp) (a : α) :
    (m.set r a).get q = if q = r then a else m.get q := by
  by_cases h : q = r
  · subst h
    simp [get, set]
  · have hne : r.val ≠ q.val := fun he => h (Fin.ext he.symm)
    simp [get, set, h, hne]

@[simp] theorem get_set_self (m : GpMap α) (r : Gp) (a : α) : (m.set r a).get r = a := by
  simp [get_set]

theorem get_set_ne (m : GpMap α) {r q : Gp} (h : q ≠ r) (a : α) : (m.set r a).get q = m.get q := by
  simp [get_set, h]

@[simp] theorem get_replicate (a : α) (r : Gp) : (replicate a).get r = a := by
  simp [get, replicate]

end GpMap

@[simp] theorem Reg.gp?_gp (i : Gp) : (Reg.gp i.val).gp? = some i := by
  simp [Reg.gp, Reg.gp?]

theorem Reg.eq_gp {r : Reg} {i : Gp} (h : r.gp? = some i) : r = .gp i.val := by
  obtain ⟨bank, id⟩ := r
  unfold gp? at h
  split at h
  next hr =>
    cases h
    exact congrArg (Reg.mk · id) hr.1
  · cases h

theorem Reg.gp_injective {i j : Gp} (h : Reg.gp i.val = Reg.gp j.val) : i = j :=
  Fin.ext (congrArg Reg.id h)

namespace RegSet

variable (s t : RegSet) (i j : Gp)

@[simp] theorem has_empty : empty.has i = false := by simp [empty, has]

@[simp] theorem has_insert : (s.insert (.gp i.val)).has j = (s.has j || decide (j = i)) := by
  simp [insert, has, Fin.ext_iff]

@[simp] theorem has_erase : (s.erase (.gp i.val)).has j = (s.has j && !decide (j = i)) := by
  simp [erase, has, Fin.ext_iff]

@[simp] theorem has_inter : (s.inter t).has i = (s.has i && t.has i) := by simp [inter, has]

@[simp] theorem has_diff : (s.diff t).has i = (s.has i && !t.has i) := by
  simp [diff, has]

@[simp] theorem mem_members : i ∈ s.members ↔ s.has i = true := by simp [members]

variable {s i} in
/-- The first member is the lowest one. -/
theorem lowest_member (h : s.members.head? = some i) :
    s.has i = true ∧ ∀ j < i, s.has j = false := by
  rw [members, List.head?_filter, List.find?_eq_some_iff_getElem] at h
  obtain ⟨hi, n, hn, rfl, hlow⟩ := h
  exact ⟨hi, fun j hj => by simpa using hlow j (by simpa [Fin.lt_def] using hj)⟩

end RegSet

namespace RegisterFile

structure Valid (f : RegisterFile) : Prop where
  allocatable : ∀ i, f.owned.has i = true → f.allocatable.has i = true
  owner : ∀ i, f.owned.has i = (f.owners.get i).isSome
  unlocked : ∀ i, f.owned.has i = false → f.locks.get i = 0

variable {f g : RegisterFile} {i : Gp} {r : Reg} {l : Nat}

theorem valid_ofSet (allocatable : RegSet) : (ofSet allocatable).Valid where
  allocatable i h := by simp [ofSet] at h
  owner i := by simp [ofSet]
  unlocked i _ := by simp [ofSet]

theorem Valid.owned_of_owner (h : f.Valid) (ho : f.owners.get i = some l) :
    f.owned.has i = true := by
  rw [h.owner, ho]
  rfl

theorem Valid.allocatable_of_owner (h : f.Valid) (ho : f.owners.get i = some l) :
    f.allocatable.has i = true :=
  h.allocatable i (h.owned_of_owner ho)

/-- A register is given an owner. -/
theorem Valid.assign (h : f.Valid) (hi : f.allocatable.has i = true) (l : Nat) (hand : Gp) :
    ({ f.assign i l with hand } : RegisterFile).Valid where
  allocatable j hj := by
    simp only [RegisterFile.assign, has_insert, Bool.or_eq_true, decide_eq_true_eq] at hj
    rcases hj with hj | rfl
    · exact h.allocatable j hj
    · exact hi
  owner j := by
    simp only [RegisterFile.assign, GpMap.get_set]
    split <;> simp [*, h.owner j]
  unlocked j hj := by
    simp only [RegisterFile.assign, has_insert, Bool.or_eq_false_iff, decide_eq_false_iff_not] at hj
    simp only [RegisterFile.assign, GpMap.get_set_ne _ hj.2, h.unlocked j hj.1]

theorem Valid.disown (h : f.Valid) (i : Gp) : (f.disown i).Valid where
  allocatable j hj := by
    simp only [RegisterFile.disown, has_erase, Bool.and_eq_true] at hj
    exact h.allocatable j hj.1
  owner j := by
    simp only [RegisterFile.disown, GpMap.get_set]
    split <;> simp [*, h.owner j]
  unlocked j hj := by
    simp only [RegisterFile.disown, GpMap.get_set] at hj ⊢
    split
    · rfl
    next hne => exact h.unlocked j (by simpa [hne] using hj)

theorem owner_of_disown {j : Gp} (h : (f.disown i).owners.get j = some l) :
    j ≠ i ∧ f.owners.get j = some l := by
  simp only [RegisterFile.disown, GpMap.get_set] at h
  split at h
  · cases h
  next hne => exact ⟨hne, h⟩

/-- What giving out a register does. The register had no lock, and its owner is the one that is
reported. -/
structure Takes (f : RegisterFile) (l : Nat) (i : Gp) (g : RegisterFile) : Prop where
  valid : g.Valid
  allocatable_eq : g.allocatable = f.allocatable
  allocatable : f.allocatable.has i = true
  unlocked : f.locks.get i = 0
  owners : g.owners = f.owners.set i (some l)
  locks : g.locks = f.locks.set i 0

/-- What `allocate` answers. The lowest free register goes first. An owned one is taken only if none
is free and it is not locked, and its owner is reported. -/
inductive Allocates (f : RegisterFile) (l : Nat) :
    Except RegisterError ((Reg × Option Nat) × RegisterFile) → Prop
  | free {i : Gp} {g : RegisterFile} (hfree : f.owned.has i = false)
      (hlow : ∀ j < i, f.allocatable.has j = true → f.owned.has j = true)
      (howner : f.owners.get i = none) (h : f.Takes l i g) :
      Allocates f l (.ok ((.gp i.val, none), g))
  | evict {i : Gp} {g : RegisterFile} {previous : Nat}
      (hfull : ∀ j, f.allocatable.has j = true → f.owned.has j = true)
      (howner : f.owners.get i = some previous) (h : f.Takes l i g) :
      Allocates f l (.ok ((.gp i.val, some previous), g))
  | exhausted (h : ∀ j, f.allocatable.has j = true → f.owned.has j = true ∧ f.locks.get j ≠ 0) :
      Allocates f l (.error .exhausted)

theorem mem_scanOrder (hand i : Gp) : i ∈ scanOrder hand := by
  decide +revert

theorem Valid.allocates (h : f.Valid) (l : Nat) : f.Allocates l (f.allocate l) := by
  unfold RegisterFile.allocate
  split
  next i hi =>
    obtain ⟨hmem, hlow⟩ := lowest_member hi
    simp only [has_diff, Bool.and_eq_true, Bool.not_eq_true'] at hmem
    have howner := h.owner i
    rw [hmem.2, eq_comm, isSome_eq_false_iff, isNone_iff_eq_none] at howner
    refine .free hmem.2 (fun j hj ha => ?_) howner
      ⟨h.assign hmem.1 l f.hand, rfl, hmem.1, h.unlocked i hmem.2, rfl, rfl⟩
    simpa [ha] using hlow j hj
  next hnone =>
    have hfull : ∀ j, f.allocatable.has j = true → f.owned.has j = true := fun j ha => by
      have hmem := List.eq_nil_iff_forall_not_mem.mp (List.head?_eq_none_iff.mp hnone) j
      simpa [ha] using hmem
    split
    next i hvictim =>
      have hv := List.find?_some hvictim
      simp only [isVictim, Bool.and_eq_true, beq_iff_eq] at hv
      obtain ⟨previous, howner⟩ := isSome_iff_exists.mp ((h.owner i).symm.trans hv.1)
      have hi := h.allocatable i hv.1
      rw [howner]
      exact .evict hfull howner ⟨h.assign hi l i.next, rfl, hi, hv.2, rfl, rfl⟩
    next hnone =>
      refine .exhausted fun j ha => ⟨hfull j ha, fun hzero => ?_⟩
      refine List.find?_eq_none.mp hnone j ?_ (by simp [isVictim, hfull j ha, hzero])
      exact mem_scanOrder f.hand j

theorem Valid.allocate (h : f.Valid) {evicted : Option Nat}
    (ha : f.allocate l = .ok ((r, evicted), g)) :
    ∃ i, r = .gp i.val ∧ evicted = f.owners.get i ∧ f.Takes l i g := by
  have hall := h.allocates l
  rw [ha] at hall
  cases hall with
  | free _ _ howner h | evict _ howner h => exact ⟨_, rfl, howner.symm, h⟩

theorem Valid.allocate_eq_exhausted (h : f.Valid) : f.allocate l = .error .exhausted ↔
    ∀ j, f.allocatable.has j = true → f.owned.has j = true ∧ f.locks.get j ≠ 0 := by
  have hall := h.allocates l
  generalize f.allocate l = answer at hall ⊢
  cases hall with
  | exhausted h => exact ⟨fun _ => h, fun _ => rfl⟩
  | free hfree _ _ ht =>
    refine ⟨nofun, fun hlocked => ?_⟩
    rw [(hlocked _ ht.allocatable).1] at hfree
    cases hfree
  | evict _ _ ht => exact ⟨nofun, fun hlocked => ((hlocked _ ht.allocatable).2 ht.unlocked).elim⟩

theorem release_eq_ok (hr : f.release r = .ok g) :
    ∃ i, r = .gp i.val ∧ f.owned.has i = true ∧ g = f.disown i := by
  unfold release at hr
  split at hr
  · cases hr
  · split at hr
    next i hi =>
      cases hr
      obtain ⟨hgp, hown⟩ := filter_eq_some_iff.mp hi
      exact ⟨i, Reg.eq_gp hgp, hown, rfl⟩
    · cases hr

/-- A locked register stays with its owner. -/
theorem lock_eq_ok (hl : f.lock r = .ok g) :
    ∃ i, r = .gp i.val ∧ f.owned.has i = true ∧
      ∃ n, n ≠ 0 ∧ g = { f with locks := f.locks.set i n } := by
  unfold lock at hl
  split at hl
  next i hi =>
    cases hl
    obtain ⟨hgp, hown⟩ := filter_eq_some_iff.mp hi
    refine ⟨i, Reg.eq_gp hgp, hown, _, ?_, rfl⟩
    simp [maxLocks]
  · cases hl

theorem unlock_eq_ok (hl : f.unlock r = .ok g) :
    ∃ i, r = .gp i.val ∧ f.owned.has i = true ∧ ∃ n, g = { f with locks := f.locks.set i n } := by
  unfold unlock at hl
  split at hl
  next i hi =>
    split at hl <;> cases hl
    obtain ⟨hgp, hown⟩ := filter_eq_some_iff.mp hi
    exact ⟨i, Reg.eq_gp hgp, hown, _, rfl⟩
  · cases hl

theorem Valid.lock (h : f.Valid) (hi : f.owned.has i = true) (n : Nat) :
    ({ f with locks := f.locks.set i n } : RegisterFile).Valid where
  allocatable := h.allocatable
  owner := h.owner
  unlocked j hj := by
    have hne : j ≠ i := by
      rintro rfl
      rw [hi] at hj
      cases hj
    simp only [GpMap.get_set_ne _ hne, h.unlocked j hj]

theorem Valid.unlockAll (h : f.Valid) : f.unlockAll.Valid where
  allocatable := h.allocatable
  owner := h.owner
  unlocked i _ := by simp [RegisterFile.unlockAll]

theorem holder?_eq_some (h : f.holder? l = some r) :
    ∃ i, r = .gp i.val ∧ f.owned.has i = true ∧ f.owners.get i = some l := by
  obtain ⟨i, hi, rfl⟩ := map_eq_some_iff.mp h
  have hmem := List.mem_of_find?_eq_some hi
  have howner := List.find?_some hi
  exact ⟨i, rfl, (mem_members _ _).mp hmem, beq_iff_eq.mp howner⟩

theorem Valid.holder?_eq_none (hf : f.Valid) (h : f.holder? l = none) (i : Gp) :
    f.owners.get i ≠ some l := by
  intro ho
  unfold holder? at h
  rw [map_eq_none_iff, List.find?_eq_none] at h
  exact h i ((mem_members _ _).mpr (hf.owned_of_owner ho)) (beq_iff_eq.mpr ho)

theorem isLocked_gp (h : f.owned.has i = true) : f.isLocked (.gp i.val) = (f.locks.get i != 0) := by
  simp [isLocked, h]

theorem Valid.mem_ownedIn (h : f.Valid) {set : RegSet} :
    (r, l) ∈ f.ownedIn set ↔ ∃ i, r = .gp i.val ∧ set.has i = true ∧ f.owners.get i = some l := by
  simp only [ownedIn, List.mem_filterMap, mem_members, has_inter, Bool.and_eq_true,
    map_eq_some_iff, Prod.mk.injEq]
  constructor
  · rintro ⟨i, ⟨-, hset⟩, l', howner, rfl, rfl⟩
    exact ⟨i, rfl, hset, howner⟩
  · rintro ⟨i, rfl, hset, howner⟩
    exact ⟨i, ⟨h.owned_of_owner howner, hset⟩, l, howner, rfl, rfl⟩

/-- Each register is listed once. -/
theorem nodup_ownedIn (set : RegSet) : ((f.ownedIn set).map Prod.fst).Nodup := by
  unfold ownedIn
  rw [List.map_filterMap]
  refine List.Nodup.filterMap (fun i j r hi hj => ?_) ((List.nodup_finRange 16).filter _)
  simp only [mem_def, map_eq_some_iff] at hi hj
  obtain ⟨_, ⟨_, _, rfl⟩, rfl⟩ := hi
  obtain ⟨_, ⟨_, _, rfl⟩, heq⟩ := hj
  exact Reg.gp_injective heq.symm

/-! ### Sequences of calls -/

/-- Look at the register under the hand and move the hand on, up to so many times. -/
def scan : Nat → RegisterFile → Option Gp × RegisterFile
  | 0, f => (none, f)
  | n + 1, f =>
    let passed := { f with hand := f.hand.next }
    if f.isVictim f.hand then (some f.hand, passed) else scan n passed

theorem scan_eq (n : Nat) (f : RegisterFile) :
    scan n f = match (List.iterate Gp.next f.hand n).find? f.isVictim with
      | some i => (some i, { f with hand := i.next })
      | none => (none, { f with hand := Gp.next^[n] f.hand }) := by
  induction n generalizing f with
  | zero => rfl
  | succ n ih =>
    rw [scan, List.iterate, List.find?_cons, Function.iterate_succ_apply]
    cases f.isVictim f.hand with
    | true => rfl
    | false => exact ih _

/-- `allocate` with a hand that moves while it looks for a register to take. -/
def allocateByScan (f : RegisterFile) (l : Nat) :
    Except RegisterError (Reg × Option Nat) × RegisterFile :=
  match (f.allocatable.diff f.owned).members.head? with
  | some i => (.ok (.gp i.val, none), f.assign i l)
  | none =>
    match scan 16 f with
    | (some i, g) => (.ok (.gp i.val, g.owners.get i), g.assign i l)
    | (none, g) => (.error .exhausted, g)

/-- A scan that finds nothing has brought the hand back to where it was. -/
theorem allocateByScan_eq (f : RegisterFile) (l : Nat) :
    f.allocateByScan l = match f.allocate l with
      | .ok (found, g) => (.ok found, g)
      | .error e => (.error e, f) := by
  have horder : ∀ hand : Gp, List.iterate Gp.next hand 16 = scanOrder hand := by decide
  have hround : ∀ hand : Gp, Gp.next^[16] hand = hand := by decide
  unfold allocateByScan allocate
  rw [scan_eq, horder, hround]
  cases (f.allocatable.diff f.owned).members.head? with
  | some i => rfl
  | none =>
    rw [victim?]
    cases (scanOrder f.hand).find? f.isVictim <;> rfl

inductive Call where
  | allocate (l : Nat)
  | release (r : Reg)
  | lock (r : Reg)
  | unlock (r : Reg)
  | unlockAll
  | reset

def attempt (f : RegisterFile) : Call → Except RegisterError RegisterFile
  | .allocate l => (f.allocate l).map Prod.snd
  | .release r => f.release r
  | .lock r => f.lock r
  | .unlock r => f.unlock r
  | .unlockAll => .ok f.unlockAll
  | .reset => .ok f.reset

/-- The file after a sequence of calls. A call that fails leaves it as it is. -/
def run (f : RegisterFile) : List Call → RegisterFile
  | [] => f
  | c :: rest => match f.attempt c with
    | .ok g => run g rest
    | .error _ => run f rest

theorem Valid.attempt (h : f.Valid) {c : Call} (hc : f.attempt c = .ok g) :
    g.Valid ∧ g.allocatable = f.allocatable := by
  cases c with
  | allocate l =>
    cases ha : f.allocate l with
    | error e => simp [RegisterFile.attempt, ha, Except.map] at hc
    | ok found =>
      obtain ⟨i, -, -, ht⟩ := h.allocate ha
      obtain rfl : found.2 = g := by simpa [RegisterFile.attempt, ha, Except.map] using hc
      exact ⟨ht.valid, ht.allocatable_eq⟩
  | release r =>
    obtain ⟨i, -, -, rfl⟩ := release_eq_ok hc
    exact ⟨h.disown i, rfl⟩
  | lock r =>
    obtain ⟨i, -, hi, n, -, rfl⟩ := lock_eq_ok hc
    exact ⟨h.lock hi n, rfl⟩
  | unlock r =>
    obtain ⟨i, -, hi, n, rfl⟩ := unlock_eq_ok hc
    exact ⟨h.lock hi n, rfl⟩
  | unlockAll =>
    cases hc
    exact ⟨h.unlockAll, rfl⟩
  | reset =>
    cases hc
    exact ⟨valid_ofSet _, rfl⟩

theorem Valid.run (h : f.Valid) (calls : List Call) :
    (f.run calls).Valid ∧ (f.run calls).allocatable = f.allocatable := by
  induction calls generalizing f with
  | nil => exact ⟨h, rfl⟩
  | cons c rest ih =>
    rw [RegisterFile.run]
    split
    next g hc =>
      obtain ⟨hg, hset⟩ := h.attempt hc
      exact hset ▸ ih hg
    next => exact ih h

/-- After any calls the file is valid and gives out registers as it should: a free one before an
owned one, and none only when all of them are locked. In that case the scan for one to take leaves
no trace. -/
theorem run_ofSet_allocates (set : RegSet) (calls : List Call) (l : Nat) :
    let f := (ofSet set).run calls
    f.Valid ∧ f.allocatable = set ∧ f.hand.val < 16 ∧ f.Allocates l (f.allocate l) ∧
      (f.allocate l = .error .exhausted ↔
        ∀ i, set.has i = true → f.owned.has i = true ∧ f.locks.get i ≠ 0) ∧
      f.allocateByScan l = match f.allocate l with
        | .ok (found, g) => (.ok found, g)
        | .error e => (.error e, f) := by
  intro f
  obtain ⟨hf, hset⟩ := (valid_ofSet set).run calls
  refine ⟨hf, hset, f.hand.isLt, hf.allocates l, ?_, f.allocateByScan_eq l⟩
  rw [hf.allocate_eq_exhausted, hset]
  rfl

/-! ### Nested locks -/

/-- How deep the locks of `r` nest after a call. An unlock of a register that is not locked
fails. -/
def nest (r : Reg) (depth : Nat) : Call → Nat
  | .lock q => if q = r then depth + 1 else depth
  | .unlock q => if q = r then depth - 1 else depth
  | _ => depth

/-- The call neither gives the register out nor takes it, and does not forget its locks. -/
def Call.Spares (f : RegisterFile) (r : Reg) : Call → Prop
  | .allocate l => ∀ evicted g, f.allocate l ≠ .ok ((r, evicted), g)
  | .release q => q ≠ r
  | .lock _ | .unlock _ => True
  | .unlockAll | .reset => False

/-- The register has an owner, and its locks nest so deep. -/
structure Nested (f : RegisterFile) (i : Gp) (depth : Nat) : Prop where
  valid : f.Valid
  owned : f.owned.has i = true
  locks : f.locks.get i = depth

variable {depth : Nat} {c : Call} {calls : List Call}

namespace Nested

variable (h : f.Nested i depth)

include h

theorem unlock_eq : f.unlock (.gp i.val) = if depth = 0 then .error (.unbalancedUnlock (.gp i.val))
    else .ok { f with locks := f.locks.set i (depth - 1) } := by
  rw [unlock, Reg.gp?_gp, filter_some_pos h.owned]
  simp only [h.locks]

/-- A call that spares the register and leaves its count of locks alone. -/
theorem spared (hc : f.attempt c = .ok g) (hspares : c.Spares f (.gp i.val))
    (hlock : c ≠ .lock (.gp i.val)) (hunlock : c ≠ .unlock (.gp i.val)) : g.Nested i depth := by
  obtain ⟨hg, -⟩ := h.valid.attempt hc
  suffices hsame : g.owners.get i = f.owners.get i ∧ g.locks.get i = f.locks.get i by
    refine ⟨hg, ?_, hsame.2.trans h.locks⟩
    rw [hg.owner, hsame.1, ← h.valid.owner, h.owned]
  cases c with
  | allocate l =>
    cases ha : f.allocate l with
    | error e => simp [attempt, ha, Except.map] at hc
    | ok found =>
      obtain ⟨⟨q, evicted⟩, g'⟩ := found
      obtain ⟨j, rfl, -, ht⟩ := h.valid.allocate ha
      obtain rfl : g' = g := by simpa [attempt, ha, Except.map] using hc
      have hne : i ≠ j := fun hij => hspares _ _ (hij ▸ ha)
      rw [ht.owners, ht.locks, GpMap.get_set_ne _ hne, GpMap.get_set_ne _ hne]
      exact ⟨rfl, rfl⟩
  | release q =>
    obtain ⟨j, rfl, -, rfl⟩ := release_eq_ok hc
    have hne : i ≠ j := fun hij => hspares (hij ▸ rfl)
    exact ⟨GpMap.get_set_ne _ hne _, GpMap.get_set_ne _ hne _⟩
  | lock q =>
    obtain ⟨j, rfl, -, n, -, rfl⟩ := lock_eq_ok hc
    exact ⟨rfl, GpMap.get_set_ne _ (fun (hij : i = j) => hlock (hij ▸ rfl)) _⟩
  | unlock q =>
    obtain ⟨j, rfl, -, n, rfl⟩ := unlock_eq_ok hc
    exact ⟨rfl, GpMap.get_set_ne _ (fun (hij : i = j) => hunlock (hij ▸ rfl)) _⟩
  | unlockAll => exact hspares.elim
  | reset => exact hspares.elim

/-- A call counts the locks, as long as the counter can hold them. -/
theorem call (hspares : c.Spares f (.gp i.val)) (hdepth : nest (.gp i.val) depth c ≤ maxLocks) :
    (f.run [c]).Nested i (nest (.gp i.val) depth c) := by
  by_cases hlock : c = .lock (.gp i.val)
  · subst hlock
    simp only [nest, if_true] at hdepth ⊢
    simp only [RegisterFile.run, attempt, lock, Reg.gp?_gp, filter_some, h.owned, h.locks, if_true,
      Nat.min_eq_left hdepth]
    exact ⟨h.valid.lock h.owned _, h.owned, GpMap.get_set_self ..⟩
  by_cases hunlock : c = .unlock (.gp i.val)
  · subst hunlock
    simp only [RegisterFile.run, attempt, h.unlock_eq, nest, if_true]
    by_cases hzero : depth = 0
    · simpa [hzero] using h
    · simp only [hzero, if_false]
      exact ⟨h.valid.lock h.owned _, h.owned, GpMap.get_set_self ..⟩
  have hnest : nest (.gp i.val) depth c = depth := by
    cases c with
    | lock q => exact if_neg fun hq : q = _ => hlock (hq ▸ rfl)
    | unlock q => exact if_neg fun hq : q = _ => hunlock (hq ▸ rfl)
    | _ => rfl
  rw [hnest, RegisterFile.run]
  split
  next g hc => exact h.spared hc hspares hlock hunlock
  next => exact h

theorem run (hspares : ∀ before c after, calls = before ++ c :: after →
      c.Spares (f.run before) (.gp i.val))
    (hdepth : ∀ before, before <+: calls → before.foldl (nest (.gp i.val)) depth ≤ maxLocks) :
    (f.run calls).Nested i (calls.foldl (nest (.gp i.val)) depth) := by
  have hrun : ∀ (f : RegisterFile) c rest, f.run (c :: rest) = (f.run [c]).run rest := by
    intro f c rest
    simp only [RegisterFile.run]
    split <;> rfl
  induction calls generalizing f depth with
  | nil => exact h
  | cons c rest ih =>
    rw [hrun, List.foldl_cons]
    refine ih (h.call (hspares [] c rest rfl) (hdepth [c] ⟨rest, rfl⟩))
      (fun before d after hrest => ?_) fun before hbefore => ?_
    · rw [← hrun]
      exact hspares (c :: before) d after (hrest ▸ rfl)
    · exact hdepth (c :: before) (List.cons_prefix_cons.mpr ⟨rfl, hbefore⟩)

end Nested

/-- Locks nest as long as the counter can hold them. Since a register was given out, while fewer
unlocks than locks were made, the next unlock succeeds and the register is locked and not given out
again; once they are equal, it is not locked and an unlock fails. -/
theorem locks_nest (set : RegSet) (earlier : List Call) {evicted : Option Nat}
    (ha : ((ofSet set).run earlier).allocate l = .ok ((r, evicted), f))
    (hspares : ∀ before c after, calls = before ++ c :: after → c.Spares (f.run before) r)
    (hdepth : ∀ before, before <+: calls → before.foldl (nest r) 0 ≤ maxLocks) :
    let g := f.run calls
    (0 < calls.foldl (nest r) 0 → (∃ g', g.unlock r = .ok g') ∧ g.isLocked r = true ∧
      ∀ l' found g', g.allocate l' = .ok (found, g') → found.1 ≠ r) ∧
    (calls.foldl (nest r) 0 = 0 →
      g.isLocked r = false ∧ g.unlock r = .error (.unbalancedUnlock r)) := by
  intro g
  obtain ⟨i, rfl, -, ht⟩ := ((valid_ofSet set).run earlier).1.allocate ha
  have hi : f.owned.has i = true := by
    rw [ht.valid.owner, ht.owners, GpMap.get_set_self]
    rfl
  have hstart : f.Nested i 0 := ⟨ht.valid, hi, by rw [ht.locks, GpMap.get_set_self]⟩
  have hg : g.Nested i (calls.foldl (nest (.gp i.val)) 0) := hstart.run hspares hdepth
  rw [hg.unlock_eq, isLocked_gp hg.owned, hg.locks]
  refine ⟨fun hpos => ⟨?_, by simpa using Nat.ne_of_gt hpos, ?_⟩, fun hzero => by simp [hzero]⟩
  · rw [if_neg (Nat.ne_of_gt hpos)]
    exact ⟨_, rfl⟩
  · rintro l' ⟨q, e⟩ g' hg' rfl
    obtain ⟨j, hj, -, htakes⟩ := hg.valid.allocate hg'
    have hunlocked := htakes.unlocked
    rw [← Reg.gp_injective hj, hg.locks] at hunlocked
    omega

theorem locks_nest_twice :
    let calls : List Call := [.lock (.gp 0), .lock (.gp 0), .unlock (.gp 0)]
    calls.foldl (nest (.gp 0)) 0 = 1 ∧ ∃ f,
      (ofSet (RegSet.empty.insert (.gp 0))).allocate 7 = .ok ((.gp 0, none), f) ∧
        (f.run calls).isLocked (.gp 0) = true := by
  refine ⟨by decide, _, rfl, ?_⟩
  refine ((locks_nest (RegSet.empty.insert (.gp 0)) [] rfl (fun before c after hcalls => ?_)
    fun before hbefore => ?_).1 (by decide)).2.1
  · have hc : c ∈ before ++ c :: after := by simp
    rw [← hcalls] at hc
    simp only [List.mem_cons, List.not_mem_nil, or_false] at hc
    rcases hc with rfl | rfl | rfl <;> trivial
  · revert before
    simp only [← List.mem_inits]
    decide

/-- Of 256 nested locks one is forgotten: after 255 unlocks the register is not locked. -/
theorem lock_forgotten :
    let f := (ofSet (RegSet.empty.insert (.gp 0))).run [.allocate 7]
    let calls : List Call :=
      List.replicate 256 (.lock (.gp 0)) ++ List.replicate 255 (.unlock (.gp 0))
    calls.foldl (nest (.gp 0)) 0 = 1 ∧ (f.run calls).isLocked (.gp 0) = false ∧
      (f.run (calls ++ [.lock (.gp 0)])).isLocked (.gp 0) = true := by
  decide +kernel

end RegisterFile

end Dynarec.Host
