import Dynarec.Proofs.Code.CacheTable

/-!
# Removal by range

Every entry stands at the address of its block and is no longer than the window of range queries,
whatever was installed, replaced and removed before. So a query finds exactly the blocks that have a
byte in the range.
-/

namespace Dynarec.Code

open List Compiled

namespace Compiled

/-- A block of at least one byte whose end is an address. -/
def Bounded (c : Compiled) : Prop := 1 ≤ c.guestSize ∧ c.guestLimit < UInt64.size

/-- A byte of the block is in a guest range, which reaches no further than the address space. -/
def SharesByte (c : Compiled) (address size : UInt64) : Prop :=
  ∃ a, c.guestAddress.toNat ≤ a ∧ a < c.guestLimit ∧ address.toNat ≤ a ∧
    a < min (address.toNat + size.toNat) UInt64.size

/-- The last address is cut off a range, but no block has a byte there. -/
theorem Bounded.overlaps_iff {c : Compiled} (h : c.Bounded) {address size : UInt64}
    (hsize : size ≠ 0) : c.overlaps address size = true ↔ c.SharesByte address size := by
  obtain ⟨hpos, hlimit⟩ := h
  have hsize : size.toNat ≠ 0 := fun heq => hsize (UInt64.toNat_inj.mp heq)
  rw [overlaps, Bool.and_eq_true, decide_eq_true_eq, decide_eq_true_eq]
  simp only [SharesByte, rangeLimit, guestLimit] at hlimit ⊢
  constructor
  · rintro ⟨hstart, hend⟩
    exact ⟨max c.guestAddress.toNat address.toNat, by omega⟩
  · rintro ⟨a, hstart, hend, hle, hlt⟩
    omega

end Compiled

namespace Cache

variable {c : Cache} {a address size : UInt64} {x : Compiled}

def Change.Bounded : Change → Prop
  | install block _ _ _ => block.Bounded
  | replace current replacement =>
    replacement.guestAddress = current.guestAddress ∧ replacement.Bounded
  | removeRange _ _ | clear | prepare _ _ | ensure _ => True

/-- Each address has one entry. -/
theorem Filed.nodup_entries (h : c.Filed) : (c.entries.map (·.1)).Nodup := by
  refine pairwise_map.mpr (pairwise_flatten.mpr ⟨fun s hs => ?_, ?_⟩)
  · obtain ⟨i, hi, rfl⟩ := Vector.mem_iff_getElem.mp (Vector.mem_toList_iff.mp hs)
    exact (h.ascending ⟨i, hi⟩).imp UInt64.ne_of_lt
  · rw [pairwise_iff_getElem]
    intro i j hi hj hlt e he e' he' heq
    rw [Vector.length_toList] at hi hj
    have hindex := h.index ⟨i, hi⟩ e he
    rw [heq, h.index ⟨j, hj⟩ e' he'] at hindex
    exact hlt.ne (congrArg Fin.val hindex).symm

structure Ranged (c : Cache) : Prop where
  filed : c.Filed
  placed : ∀ e ∈ c.entries, c.Placed e ∧ e.2.Bounded
  table : ∃ map, c.table.Represents map

namespace Ranged

theorem ofTable (mode : Guest.Mode) (fill : UInt64) : (ofTable (.ofMode mode fill)).Ranged where
  filed := filed_ofTable _
  placed e he := by simp at he
  table := ⟨_, .ofMode mode fill⟩

section

variable (h : c.Ranged)

include h

theorem put (haddress : a = x.guestAddress) (hx : x.Bounded) : (c.put a x).Ranged where
  filed := h.filed.put a x
  placed e he := by
    rcases mem_entries_put he with rfl | he
    · exact ⟨⟨haddress, le_max_right _ _⟩, hx⟩
    · obtain ⟨hplaced, hbounded⟩ := h.placed e he
      exact ⟨hplaced.mono (le_max_left _ _), hbounded⟩
  table := by
    obtain ⟨map, hmap⟩ := h.table
    exact ⟨_, hmap.apply (.publish a x.host)⟩

theorem apply {change : Change} (hchange : change.Bounded) : (c.apply change).Ranged := by
  obtain ⟨map, hmap⟩ := h.table
  rcases apply_cases c change with heq | ⟨a, x, hput, heq⟩ | ⟨address, size, heq⟩ | heq |
    ⟨change, -, heq⟩ <;> rw [heq]
  · exact h
  · cases change <;> cases hput
    · exact h.put rfl hchange
    · exact h.put hchange.1.symm hchange.2
  · refine ⟨h.filed.removeRange address size, fun e he => ?_, _,
      Agrees.table_removeRange c _ _ ▸ hmap.applyAll _⟩
    obtain ⟨hplaced, hbounded⟩ := h.placed e (mem_entries_removeRange he).1
    exact ⟨hplaced.mono le_rfl, hbounded⟩
  · exact ⟨filed_clear c, fun e he => by simp [entries_clear] at he, _, hmap.apply .clear⟩
  · exact ⟨⟨h.filed.ascending, h.filed.index⟩,
      fun e he => (h.placed e he).imp_left fun hp => hp.mono le_rfl, _, hmap.apply change⟩

theorem applyAll {changes : List Change} (hchanges : ∀ change ∈ changes, change.Bounded) :
    (c.applyAll changes).Ranged :=
  foldlRecOn changes Cache.apply h fun _ hc change hmem => hc.apply (hchanges change hmem)

/-- A range query hits the entries of the blocks that have a byte in the range. -/
theorem hit_iff (hsize : size ≠ 0) (hget : c.get? a = some x) :
    c.hit address size (a, x) = true ↔ x.SharesByte address size := by
  obtain ⟨hplaced, hbounded⟩ := h.placed _ (mem_entries_of_get? hget)
  rw [hplaced.hit_eq, hbounded.overlaps_iff hsize]

theorem mem_overlapping (hsize : size ≠ 0) :
    x ∈ c.overlapping address size ↔ ∃ a, c.get? a = some x ∧ x.SharesByte address size := by
  simp only [overlapping, mem_map, mem_filter, ← h.filed.get?_eq_some_iff, Prod.exists]
  constructor
  · rintro ⟨a, x, ⟨hget, hhit⟩, rfl⟩
    exact ⟨a, hget, (h.hit_iff hsize hget).mp hhit⟩
  · rintro ⟨a, hget, hshares⟩
    exact ⟨a, x, ⟨hget, (h.hit_iff hsize hget).mpr hshares⟩, rfl⟩

theorem map_overlapping : (c.overlapping address size).map guestAddress =
    (c.entries.filter (c.hit address size)).map (·.1) := by
  rw [overlapping, map_map]
  exact map_congr_left fun e he => (h.placed e (mem_filter.mp he).1).1.address.symm

theorem nodup_overlapping : ((c.overlapping address size).map guestAddress).Nodup := by
  rw [h.map_overlapping]
  exact h.filed.nodup_entries.sublist (filter_sublist.map _)

theorem get?_removeRange (hsize : size ≠ 0) :
    (c.removeRange address size).2.get? a = some x ↔
      c.get? a = some x ∧ ¬x.SharesByte address size := by
  rw [h.filed.get?_removeRange, Option.filter_eq_some_iff]
  refine and_congr_right fun hget => ?_
  rw [← h.hit_iff hsize hget]
  simp

/-- Removal by range resets the addresses of what it removes. -/
theorem lookup_removeRange : (c.removeRange address size).2.table.lookup a =
    if a ∈ (c.overlapping address size).map guestAddress then none else c.table.lookup a := by
  obtain ⟨map, hmap⟩ := h.table
  let resets := (c.entries.filter (c.hit address size)).map fun e => AddressTable.Change.reset e.1
  have hlater := hmap.sound.later_applyAll resets
  rw [Agrees.table_removeRange, h.map_overlapping]
  cases hvalid : c.table.isValid a with
  | false =>
    rw [AddressTable.lookup_of_not_valid (hlater.isValid_eq.trans hvalid),
      AddressTable.lookup_of_not_valid hvalid, ite_self]
  | true =>
    rw [(hmap.applyAll resets).lookup_eq (hlater.isValid_eq.trans hvalid),
      AddressTable.foldl_reset, hmap.lookup_eq hvalid]

end

end Ranged

/-- Whatever was installed, replaced and removed before, removal by range returns the blocks that
have a byte in the range, once each, as a query says just before; it takes them and their code in
the table away, and leaves all other blocks and their code alone. -/
theorem removeRange_exact (mode : Guest.Mode) (fill : UInt64) (changes : List Change)
    (hchanges : ∀ change ∈ changes, change.Bounded) (address size : UInt64) (hsize : size ≠ 0) :
    let c := (ofTable (.ofMode mode fill)).applyAll changes
    let (removed, rest) := c.removeRange address size
    removed = c.overlapping address size ∧
    (∀ x, x ∈ removed ↔ ∃ a, c.get? a = some x ∧ x.SharesByte address size) ∧
    (removed.map guestAddress).Nodup ∧
    (∀ a x, rest.get? a = some x ↔ c.get? a = some x ∧ ¬x.SharesByte address size) ∧
    ∀ a, rest.table.lookup a =
      if a ∈ removed.map guestAddress then none else c.table.lookup a := by
  have h : ((ofTable (.ofMode mode fill)).applyAll changes).Ranged :=
    (Ranged.ofTable mode fill).applyAll hchanges
  exact ⟨rfl, fun x => h.mem_overlapping hsize, h.nodup_overlapping,
    fun a x => h.get?_removeRange hsize, fun a => h.lookup_removeRange⟩

/-- A block that was replaced by a longer one is found where only the longer one has bytes. -/
theorem removeRange_exact_replaced :
    let short : Compiled := ⟨0, 0x1000, 4, .fast, ⟨48, 16⟩, default⟩
    let long : Compiled := ⟨1, 0x1000, 0x40, .optimized, ⟨64, 16⟩, default⟩
    let changes := [.install short 0 0 false, .replace short long]
    let c := (ofTable (.ofMode .a64 0x7f0000000020)).applyAll changes
    (∀ change ∈ changes, change.Bounded) ∧
      ∃ x ∈ (c.removeRange 0x1030 0x10).1, x.serial = 1 := by
  intro short long changes c
  have hchanges : ∀ change ∈ changes, change.Bounded := by
    simp only [changes, forall_mem_cons, Change.Bounded, Compiled.Bounded]
    exact ⟨by decide, by decide, nofun⟩
  have hlong : (c.get? 0x1000).map (fun x => (x.serial, x.guestAddress, x.guestSize)) =
      some (1, 0x1000, 0x40) := by decide +kernel
  obtain ⟨y, hy, hkey⟩ := Option.map_eq_some_iff.mp hlong
  simp only [Prod.mk.injEq] at hkey
  obtain ⟨-, hremoved, -⟩ :=
    removeRange_exact .a64 0x7f0000000020 changes hchanges 0x1030 0x10 (by decide)
  refine ⟨hchanges, y, (hremoved y).mpr ⟨0x1000, hy, 0x1030, ?_⟩, hkey.1⟩
  rw [guestLimit, hkey.2.1, hkey.2.2]
  decide

end Cache

end Dynarec.Code
