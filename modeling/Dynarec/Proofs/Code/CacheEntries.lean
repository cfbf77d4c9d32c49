import Dynarec.Code.Cache
import Dynarec.Proofs.Lookup

/-!
# Entries of the code cache

What each change of the cache does to the entries, whichever shard they are in. Removal by range
finds every entry that has bytes in the range, as long as no entry is longer than the window.
-/

namespace Dynarec.Code

theorem Shard.mem_insert {address : UInt64} {c : Compiled} {s : Shard} {e : UInt64 × Compiled}
    (h : e ∈ s.insert address c) : e = (address, c) ∨ e ∈ s := by
  induction s with
  | nil => exact .inl (List.mem_singleton.mp h)
  | cons x rest ih =>
    unfold Shard.insert at h
    split at h
    · exact List.mem_cons.mp h
    · split at h
      · exact (List.mem_cons.mp h).imp_right (.tail _)
      · rcases List.mem_cons.mp h with rfl | h
        · exact .inr (.head _)
        · exact (ih h).imp_right (.tail _)

namespace Compiled

/-- A block that has a byte in a range overlaps it. -/
theorem overlaps_of_byte (c : Compiled) (address size : UInt64) {a : Nat}
    (hlimit : address.toNat + size.toNat < UInt64.size) (hle : address.toNat ≤ a)
    (hlt : a < address.toNat + size.toNat) (hstart : c.guestAddress.toNat ≤ a)
    (hend : a < c.guestLimit) : c.overlaps address size = true := by
  have hrange : rangeLimit address size = address.toNat + size.toNat :=
    Nat.min_eq_left (Nat.le_sub_one_of_lt hlimit)
  simp only [overlaps, hrange, Bool.and_eq_true, decide_eq_true_eq]
  exact ⟨Nat.lt_of_le_of_lt hstart hlt, Nat.lt_of_le_of_lt hle hend⟩

end Compiled

namespace Cache

variable {c : Cache} {e : UInt64 × Compiled} {a address size : UInt64} {x : Compiled}

theorem mem_entries : e ∈ c.entries ↔ ∃ s ∈ c.shards.toList, e ∈ s := List.mem_flatten

theorem mem_entries_of_get? (h : c.get? a = some x) : (a, x) ∈ c.entries :=
  mem_entries.mpr ⟨c.shard a, Vector.mem_toList_iff.mpr (Vector.getElem_mem _), mem_of_lookup h⟩

@[simp] theorem entries_ofTable (table : AddressTable) : (ofTable table).entries = [] := by
  simp [entries, ofTable]

theorem mem_entries_put {block : Compiled} (h : e ∈ (c.put address block).entries) :
    e = (address, block) ∨ e ∈ c.entries := by
  obtain ⟨s, hs, he⟩ := mem_entries.mp h
  rcases List.mem_or_eq_of_mem_set hs with hs | rfl
  · exact .inr (mem_entries.mpr ⟨s, hs, he⟩)
  · refine (Shard.mem_insert he).imp_right fun he => mem_entries.mpr ⟨_, ?_, he⟩
    exact Vector.mem_toList_iff.mpr (Vector.getElem_mem _)

theorem entries_removeRange (c : Cache) (address size : UInt64) :
    (c.removeRange address size).2.entries = c.entries.filter fun e => !c.hit address size e := by
  rw [entries, entries, removeRange, Vector.toList_map, List.filter_flatten]

theorem mem_entries_removeRange (h : e ∈ (c.removeRange address size).2.entries) :
    e ∈ c.entries ∧ c.hit address size e = false := by
  rw [entries_removeRange, List.mem_filter] at h
  simpa using h

theorem entries_clear : c.clear.2.entries = [] := by
  simp [entries, clear]

structure Placed (c : Cache) (e : UInt64 × Compiled) : Prop where
  address : e.1 = e.2.guestAddress
  span : e.2.guestSize ≤ c.maxSpan

theorem Placed.mono {c' : Cache} (h : c.Placed e) (hspan : c.maxSpan ≤ c'.maxSpan) : c'.Placed e :=
  ⟨h.address, Nat.le_trans h.span hspan⟩

/-- The window of a range query cuts off no entry that has bytes in the range. -/
theorem Placed.hit_eq (h : c.Placed e) : c.hit address size e = e.2.overlaps address size := by
  have hspan := h.span
  have hlimit : e.2.guestLimit = e.2.guestAddress.toNat + e.2.guestSize := rfl
  rw [Bool.eq_iff_iff]
  simp only [hit, h.address, Compiled.overlaps, Bool.and_eq_true, decide_eq_true_eq]
  omega

end Cache

end Dynarec.Code
