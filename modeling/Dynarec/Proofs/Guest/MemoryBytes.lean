import Dynarec.Guest.Memory
import Mathlib.Order.Nat
import Mathlib.Data.List.Pairwise

/-!
# Memory as bytes

A memory is looked at as a partial map from addresses to bytes. Stores change the bytes they cover,
unmapping takes away the bytes of one region, and mapping only adds bytes if it meets no region.
Regions of a sound memory share no byte, so that a longer access reads the bytes one by one.
-/

namespace Dynarec.Guest

open List

theorem toNat_add_toUInt64 {a : UInt64} {i : Nat} (h : a.toNat + i < UInt64.size) :
    (a + i.toUInt64).toNat = a.toNat + i := by
  have hi : i.toUInt64.toNat = i := UInt64.toNat_ofNat_of_lt' (by omega)
  rw [UInt64.toNat_add, hi, Nat.mod_eq_of_lt h]

/-! ### Contents of a region -/

namespace Contents

variable (c : Contents)

theorem get_set (i j : Nat) (b : UInt8) : (c.set i b).get j = if j = i then b else c.get j := by
  unfold set get
  by_cases hi : i < c.given.size
  · simp only [hi]
    by_cases hj : j < c.given.size
    · by_cases hij : i = j
      · subst hij
        simp [hi]
      · simp [hij, Ne.symm hij]
    · have hij : j ≠ i := by omega
      simp [hj, hij]
  · simp only [hi, if_false]
    by_cases hj : j < c.given.size
    · have hij : j ≠ i := by omega
      simp [hj, hij]
    · simp only [hj, Std.HashMap.getD_insert]
      by_cases hij : i = j
      · simp [hij]
      · simp [hij, Ne.symm hij]

@[simp] theorem size_set (i : Nat) (b : UInt8) : (c.set i b).size = c.size := by
  unfold set
  split <;> rfl

@[simp] theorem size_setFrom (i : Nat) (bytes : List UInt8) :
    (c.setFrom i bytes).size = c.size := by
  induction bytes generalizing c i with
  | nil => rfl
  | cons b rest ih => rw [setFrom, ih, size_set]

theorem get_setFrom (i j : Nat) (bytes : List UInt8) :
    (c.setFrom i bytes).get j =
      if i ≤ j then (bytes[j - i]?).getD (c.get j) else c.get j := by
  induction bytes generalizing c i with
  | nil => simp [setFrom]
  | cons b rest ih =>
    rw [setFrom, ih, get_set]
    rcases Nat.lt_trichotomy j i with hlt | rfl | hgt
    · simp [show ¬ i ≤ j by omega, show ¬ i + 1 ≤ j by omega, show j ≠ i by omega]
    · simp [show ¬ j + 1 ≤ j by omega]
    · have hsub : j - i = j - (i + 1) + 1 := by omega
      rw [if_pos (show i + 1 ≤ j from hgt), if_pos hgt.le,
        if_neg (Nat.ne_of_gt hgt), hsub,
        getElem?_cons_succ]

end Contents

/-! ### Bytes of a memory -/

namespace Region

variable {r : Region} {a : UInt64} {n : Nat}

theorem contains_iff : r.contains a n = true ↔
    r.base.toNat ≤ a.toNat ∧ a.toNat + n < UInt64.size ∧ a.toNat + n ≤ r.limit := by
  simp [contains, UInt64.le_iff_toNat_le, and_assoc]

theorem offset_eq (h : r.base.toNat ≤ a.toNat) : r.offset a = a.toNat - r.base.toNat :=
  UInt64.toNat_sub_of_le _ _ (UInt64.le_iff_toNat_le.mpr h)

@[simp] theorem limit_store (bytes : List UInt8) : (r.store a bytes).limit = r.limit := by
  simp [store, limit, size]

@[simp] theorem contains_store (bytes : List UInt8) (x : UInt64) :
    (r.store a bytes).contains x n = r.contains x n := by
  rw [contains, limit_store]
  rfl

/-- The first address of a region and the first past it. -/
def ends (r : Region) : Nat × Nat := (r.base.toNat, r.limit)

def Apart (r s : Region) : Prop := r.limit ≤ s.base.toNat ∨ s.limit ≤ r.base.toNat

instance : Std.Symm Apart := ⟨fun _ _ h => Or.symm h⟩

end Region

namespace Memory

variable {m m' : Memory} {a address : UInt64} {n : Nat} {r : Region} {bytes : List UInt8}
  {regions : List Region}

def byte? (m : Memory) (a : UInt64) : Option UInt8 :=
  (m.region? a 1).map fun r => r.contents.get (r.offset a)

def Tracks (m : Memory) (a : UInt64) : Prop :=
  ∃ t ∈ m.tracked, t.first ≤ a.toNat / pageSize ∧ a.toNat / pageSize ≤ t.last

instance (m : Memory) (a : UInt64) : Decidable (m.Tracks a) := by
  unfold Tracks
  infer_instance

theorem byte?_congr (h : m'.regions = m.regions) (a : UInt64) : m'.byte? a = m.byte? a := by
  simp [byte?, region?, h]

theorem regions_track (m : Memory) (address : UInt64) (size : Nat) :
    (m.track address size).regions = m.regions := by
  unfold track
  split
  · split <;> rfl
  · rfl

theorem handlers_track (m : Memory) (address : UInt64) (size : Nat) :
    (m.track address size).handlers = m.handlers := by
  unfold track
  split
  · split <;> rfl
  · rfl

theorem Tracks.track (h : m.Tracks a) (address : UInt64) (size : Nat) :
    (m.track address size).Tracks a := by
  obtain ⟨t, ht, hpage⟩ := h
  unfold Memory.track
  split
  · split
    · exact ⟨t, ht, hpage⟩
    · exact ⟨t, .tail _ ht, hpage⟩
  · exact ⟨t, ht, hpage⟩

/-- The page of a byte is one of the pages of a range around it. -/
theorem page_mem {size : Nat} (hle : address.toNat ≤ a.toNat)
    (hlt : a.toNat < address.toNat + size) : size ≠ 0 ∧
      address.toNat / pageSize ≤ a.toNat / pageSize ∧
      a.toNat / pageSize ≤ (address.toNat + size - 1) / pageSize :=
  ⟨by omega, Nat.div_le_div_right hle, Nat.div_le_div_right (by omega)⟩

theorem tracks_track (m : Memory) {size : Nat} (hle : address.toNat ≤ a.toNat)
    (hlt : a.toNat < address.toNat + size) :
    (m.track address size).Tracks a := by
  obtain ⟨hsize, hpage, hpage'⟩ := page_mem hle hlt
  simp only [Memory.track, pages?, hsize, if_false]
  split
  next hold => exact ⟨_, by simpa using hold, hpage, hpage'⟩
  next => exact ⟨_, .head _, hpage, hpage'⟩

theorem contains_of_region? (h : m.region? a n = some r) :
    r.base.toNat ≤ a.toNat ∧ a.toNat + n < UInt64.size ∧ a.toNat + n ≤ r.limit := by
  have hcontains : r.contains a n = true := by simpa using find?_some h
  exact Region.contains_iff.mp hcontains

/-! ### Stores -/

/-- The byte at `a` of bytes that lie from `address` on. -/
def byteFrom (address : UInt64) (bytes : List UInt8) (a : UInt64) : Option UInt8 :=
  if address.toNat ≤ a.toNat then bytes[a.toNat - address.toNat]? else none

theorem byteFrom_eq_none_iff : byteFrom address bytes a = none ↔
    a.toNat < address.toNat ∨ address.toNat + bytes.length ≤ a.toNat := by
  unfold byteFrom
  split
  · rw [getElem?_eq_none_iff]
    omega
  · simp_all

theorem getD_byteFrom (h : byteFrom address bytes a = none) :
    (byteFrom address bytes a).getD = id := by
  rw [h]
  rfl

theorem Region.get_store (hr : r.contains address bytes.length = true)
    (ha : r.contains a 1 = true) :
    (r.store address bytes).contents.get ((r.store address bytes).offset a) =
      (byteFrom address bytes a).getD (r.contents.get (r.offset a)) := by
  have hbase := (Region.contains_iff.mp hr).1
  have hbase' := (Region.contains_iff.mp ha).1
  have hle : address.toNat - r.base.toNat ≤ a.toNat - r.base.toNat ↔ address.toNat ≤ a.toNat := by
    omega
  have hsub : a.toNat - r.base.toNat - (address.toNat - r.base.toNat) =
      a.toNat - address.toNat := by
    omega
  rw [show (r.store address bytes).offset a = r.offset a from rfl]
  simp only [Region.store, Contents.get_setFrom, Region.offset_eq hbase,
    Region.offset_eq hbase', hle, hsub, byteFrom]
  split <;> rfl

/-- A store changes the bytes that it covers, if the regions that hold one of them hold them all. -/
theorem byte?_storeIn (regions : List Region)
    (h : ∀ r ∈ regions, r.contains a 1 = true → byteFrom address bytes a ≠ none →
      r.contains address bytes.length = true) :
    ((storeIn address bytes regions).find? (·.contains a 1)).map
        (fun r => r.contents.get (r.offset a)) =
      ((regions.find? (·.contains a 1)).map fun r => r.contents.get (r.offset a)).map
        (byteFrom address bytes a).getD := by
  induction regions with
  | nil => rfl
  | cons r rest ih =>
    by_cases ha : r.contains a 1 = true
    · unfold storeIn
      split
      next hr => simpa [ha] using Region.get_store hr ha
      next hr =>
        have hnone : byteFrom address bytes a = none :=
          not_not.mp fun hsome => hr (h r (.head _) ha hsome)
        simp [ha, getD_byteFrom hnone]
    · unfold storeIn
      split
      next hr =>
        have hr := Region.contains_iff.mp hr
        have hnone : byteFrom address bytes a = none := by
          by_contra hsome
          rw [byteFrom_eq_none_iff] at hsome
          exact ha (Region.contains_iff.mpr (by omega))
        simp [ha, getD_byteFrom hnone]
      · simpa [ha] using ih fun r hr => h r (.tail _ hr)

/-! ### Unmapping -/

theorem find?_eraseP {α : Type} {p q : α → Bool} {l : List α} {x : α} (hp : l.find? p = some x)
    (hq : l.find? q ≠ some x) : (l.eraseP q).find? p = some x := by
  induction l with
  | nil => cases hp
  | cons y l ih =>
    by_cases hqy : q y = true
    · rw [eraseP_cons_of_pos hqy]
      rw [find?_cons_of_pos hqy] at hq
      by_cases hpy : p y = true
      · rw [find?_cons_of_pos hpy] at hp
        exact absurd hp hq
      · rwa [find?_cons_of_neg hpy] at hp
    · rw [eraseP_cons_of_neg hqy]
      rw [find?_cons_of_neg hqy] at hq
      by_cases hpy : p y = true
      · rwa [find?_cons_of_pos hpy] at hp ⊢
      · rw [find?_cons_of_neg hpy] at hp ⊢
        exact ih hp hq

/-- Only the region with the given base loses its bytes. -/
theorem byte?_unmap {base : UInt64} (hr : m.region? a 1 = some r)
    (hbase : m.regions.find? (·.base == base) ≠ some r) :
    (m.unmap base).2.byte? a = m.byte? a := by
  unfold unmap
  split
  · have hfind := find?_eraseP hr hbase
    simp only [byte?, region?, hfind]
    rw [show m.regions.find? (·.contains a 1) = some r from hr]
  · rfl

/-! ### Mapping -/

def Spares (m : Memory) (base : UInt64) (size : Nat) : Prop :=
  ∀ r ∈ m.regions, r.limit ≤ base.toNat ∨ base.toNat + size ≤ r.base.toNat

instance (m : Memory) (base : UInt64) (size : Nat) : Decidable (m.Spares base size) := by
  unfold Spares
  infer_instance

theorem Spares.filter_eq {region : Region} (h : m.Spares region.base region.size) :
    (m.regions.filter fun r =>
      r.limit ≤ region.base.toNat || region.limit ≤ r.base.toNat) = m.regions := by
  rw [filter_eq_self]
  intro r hr
  rw [Bool.or_eq_true, decide_eq_true_eq, decide_eq_true_eq]
  exact h r hr

/-- A region that meets no other one leaves the mapped bytes alone. -/
theorem byte?_insert (region : Region) (h : m.Spares region.base region.size)
    (hr : m.region? a 1 = some r) :
    (m.insert region).byte? a = m.byte? a := by
  have hmem := mem_of_find?_eq_some hr
  have hcontains := contains_of_region? hr
  have hnew : region.contains a 1 = false := by
    rw [Bool.eq_false_iff]
    intro hnew
    have hnew := Region.contains_iff.mp hnew
    rcases h r hmem with hle | hle
    · omega
    · rw [← Region.limit] at hle
      omega
  have hregion : (m.insert region).region? a 1 = m.region? a 1 := by
    simp only [region?, insert, h.filter_eq, find?_append, find?_cons, hnew]
    rw [← find?_append, takeWhile_append_dropWhile]
  rw [byte?, byte?, hregion]

/-! ### Sound memories -/

structure Sound (m : Memory) : Prop where
  apart : m.regions.Pairwise Region.Apart
  bounded : ∀ r ∈ m.regions, r.limit < UInt64.size
  sorted : m.regions.Pairwise fun r s => r.ends.1 ≤ s.ends.1

theorem sound_empty : empty.Sound := ⟨.nil, nofun, .nil⟩

theorem Sound.sublist (h : m.Sound) (hsub : m'.regions <+ m.regions) : m'.Sound :=
  ⟨h.apart.sublist hsub, fun r hr => h.bounded r (hsub.subset hr), h.sorted.sublist hsub⟩

theorem Sound.congr (h : m.Sound) (hregions : m'.regions = m.regions) : m'.Sound :=
  h.sublist (hregions ▸ .refl _)

theorem perm_insert (m : Memory) (region : Region) :
    (m.insert region).regions.Perm (region :: m.regions.filter fun r =>
      r.limit ≤ region.base.toNat || region.limit ≤ r.base.toNat) := by
  refine perm_middle.trans (List.Perm.cons _ ?_)
  rw [takeWhile_append_dropWhile]

/-- A region goes between those that start at or before its base and the others. -/
theorem sorted_split (region : Region) (h : regions.Pairwise fun r s => r.ends.1 ≤ s.ends.1) :
    (regions.takeWhile (·.base ≤ region.base) ++ region ::
      regions.dropWhile (·.base ≤ region.base)).Pairwise fun r s => r.ends.1 ≤ s.ends.1 := by
  induction h with
  | nil => simp
  | @cons r rest hfirst hrest ih =>
    by_cases hle : r.base ≤ region.base
    · rw [takeWhile_cons_of_pos (by simpa using hle), dropWhile_cons_of_pos (by simpa using hle)]
      refine .cons (fun s hs => ?_) ih
      have hs := perm_middle.mem_iff.mp hs
      rw [takeWhile_append_dropWhile] at hs
      rcases mem_cons.mp hs with rfl | hs
      · exact UInt64.le_iff_toNat_le.mp hle
      · exact hfirst s hs
    · rw [takeWhile_cons_of_neg (by simpa using hle), dropWhile_cons_of_neg (by simpa using hle)]
      have hlt : region.ends.1 ≤ r.ends.1 := (UInt64.not_le.mp hle).le
      refine .cons (fun s hs => ?_) (.cons hfirst hrest)
      rcases mem_cons.mp hs with rfl | hs
      · exact hlt
      · exact hlt.trans (hfirst s hs)

theorem Sound.insert (h : m.Sound) (region : Region) (hlimit : region.limit < UInt64.size) :
    (m.insert region).Sound := by
  have hperm := m.perm_insert region
  refine ⟨?_, fun r hr => ?_, sorted_split region (h.sorted.sublist filter_sublist)⟩
  · refine (hperm.pairwise_iff Or.symm).mpr (pairwise_cons.mpr ⟨?_, ?_⟩)
    · intro r hr
      have hkeep := (mem_filter.mp hr).2
      simp only [Bool.or_eq_true, decide_eq_true_eq] at hkeep
      exact Or.symm hkeep
    · exact h.apart.sublist filter_sublist
  · rcases mem_cons.mp (hperm.mem_iff.mp hr) with rfl | hr
    · exact hlimit
    · exact h.bounded r (mem_filter.mp hr).1

theorem unmap_sublist (m : Memory) (base : UInt64) : (m.unmap base).2.regions <+ m.regions := by
  unfold unmap
  split
  · exact eraseP_sublist
  · exact .refl _

theorem ends_storeIn :
    (storeIn address bytes regions).map Region.ends = regions.map Region.ends := by
  induction regions with
  | nil => rfl
  | cons r rest ih =>
    unfold storeIn
    split
    · exact congrArg (· :: rest.map Region.ends) (Prod.ext rfl (Region.limit_store bytes))
    · exact congrArg (r.ends :: ·) ih

/-- What holds of the ends of regions holds after a store. -/
theorem pairwise_storeIn {R : Nat × Nat → Nat × Nat → Prop}
    (h : regions.Pairwise fun r s => R r.ends s.ends) :
    (storeIn address bytes regions).Pairwise fun r s => R r.ends s.ends := by
  rw [← pairwise_map] at h ⊢
  rwa [ends_storeIn]

theorem mem_storeIn {s : Region} (hs : s ∈ storeIn address bytes regions) :
    ∃ r ∈ regions, r.ends = s.ends := by
  have hends := mem_map_of_mem (f := Region.ends) hs
  rw [ends_storeIn] at hends
  exact mem_map.mp hends

theorem Sound.store (h : m.Sound) (address : UInt64) (bytes : List UInt8) :
    (m.store address bytes).Sound := by
  refine ⟨pairwise_storeIn (R := fun p q => p.2 ≤ q.1 ∨ q.2 ≤ p.1) h.apart, fun s hs => ?_,
    pairwise_storeIn (R := fun p q => p.1 ≤ q.1) h.sorted⟩
  obtain ⟨r, hr, hends⟩ := mem_storeIn hs
  exact (congrArg Prod.snd hends).symm.le.trans_lt (h.bounded r hr)

/-- One region holds a byte. -/
theorem Sound.region?_eq (h : m.Sound) (hr : r ∈ m.regions) (ha : r.contains a 1 = true) :
    m.region? a 1 = some r := by
  have hsome : (m.region? a 1).isSome = true := find?_isSome.mpr ⟨r, hr, ha⟩
  obtain ⟨s, hs⟩ := Option.isSome_iff_exists.mp hsome
  have hs' := contains_of_region? hs
  have hr' := Region.contains_iff.mp ha
  have heq : s = r := by
    by_contra hne
    rcases h.apart.forall (mem_of_find?_eq_some hs) hr hne with hle | hle <;> omega
  exact heq ▸ hs

/-- The byte of a longer access lies in the region of the access. -/
theorem Sound.region?_byte (h : m.Sound) {b : UInt64} (hr : m.region? a n = some r)
    (hle : a.toNat ≤ b.toNat) (hlt : b.toNat < a.toNat + n) :
    m.region? b 1 = some r := by
  have hcontains := contains_of_region? hr
  exact h.region?_eq (mem_of_find?_eq_some hr) (Region.contains_iff.mpr (by omega))

theorem lt_of_read (h : m.read a n = .ok bytes) : a.toNat + n < UInt64.size := by
  unfold Memory.read at h
  split at h
  next r hr => exact (contains_of_region? hr).2.1
  next => cases h

theorem length_of_read (h : m.read a n = .ok bytes) : bytes.length = n := by
  unfold Memory.read at h
  split at h
  next r hr =>
    cases h
    simp [Region.read]
  next => cases h

/-- A read returns the bytes of its range. -/
theorem Sound.byte?_of_read (h : m.Sound) (hread : m.read a n = .ok bytes) {i : Nat} (hi : i < n) :
    m.byte? (a + i.toUInt64) = bytes[i]? := by
  unfold Memory.read at hread
  split at hread
  next r hr =>
    cases hread
    have hcontains := contains_of_region? hr
    have hnat := toNat_add_toUInt64 (a := a) (i := i) (by omega)
    have hregion := h.region?_byte (b := a + i.toUInt64) hr (by omega) (by omega)
    have hoffset : r.offset (a + i.toUInt64) = r.offset a + i := by
      rw [Region.offset_eq (by omega), Region.offset_eq hcontains.1]
      omega
    simp [byte?, hregion, hoffset, Region.read, hi]
  next => cases hread

end Memory

end Dynarec.Guest
