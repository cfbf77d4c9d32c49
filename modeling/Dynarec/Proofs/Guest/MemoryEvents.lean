import Dynarec.Proofs.Guest.MemoryBytes
import Mathlib.Data.List.Induction

/-!
# What the handlers of a memory hear

A change of a byte in a tracked page is reported to every handler, whether the byte is stored to or
unmapped. Mapping is never reported: it must not meet a mapped region.
-/

namespace Dynarec.Guest

namespace MemoryEvent

def Covers (e : MemoryEvent) (a : UInt64) : Prop :=
  e.range.1.toNat ≤ a.toNat ∧ a.toNat < e.range.1.toNat + e.range.2

instance (e : MemoryEvent) (a : UInt64) : Decidable (e.Covers a) := by
  unfold Covers
  infer_instance

end MemoryEvent

namespace Memory

variable {m : Memory} {a : UInt64}

/-- An access that covers a byte of a tracked page touches tracked code. -/
theorem Tracks.touches {address : UInt64} {size : Nat} (h : m.Tracks a)
    (hle : address.toNat ≤ a.toNat) (hlt : a.toNat < address.toNat + size) :
    m.touchesTracked address size = true := by
  obtain ⟨t, ht, hfirst, hlast⟩ := h
  obtain ⟨hsize, hpage, hpage'⟩ := page_mem hle hlt
  simp only [touchesTracked, pages?, hsize, if_false, Option.any_some, List.any_eq_true,
    Bool.and_eq_true, decide_eq_true_eq]
  exact ⟨t, ht, hfirst.trans hpage', hpage.trans hlast⟩

theorem mem_notify {e : MemoryEvent} {h : Nat} (hh : h < m.handlers) : ⟨h, e⟩ ∈ m.notify e :=
  List.mem_map.mpr ⟨h, List.mem_range.mpr hh, rfl⟩

/-- What a write reports and leaves behind. -/
theorem write_cases (m : Memory) (address : UInt64) (bytes : List UInt8) :
    (∃ e, m.write address bytes = (.error e, m)) ∨
      ∃ r, m.region? address bytes.length = some r ∧ m.write address bytes =
        (.ok (if m.touchesTracked address bytes.length then
          m.notify (.codeWritten address bytes.length) else []), m.store address bytes) := by
  unfold write
  split
  next e _ => exact .inl ⟨e, rfl⟩
  next hcheck =>
    unfold checkWrite at hcheck
    split at hcheck
    next r hr => exact .inr ⟨r, hr, rfl⟩
    next => cases hcheck

/-! ### Actions -/

inductive Action where
  | map (base : UInt64) (size : Nat) (writable : Bool)
  | mapBytes (base : UInt64) (bytes : Array UInt8) (writable : Bool)
  | unmap (base : UInt64)
  | write (address : UInt64) (bytes : List UInt8)
  | track (address : UInt64) (size : Nat)
  | subscribe

def act (m : Memory) : Action → List Delivery × Memory
  | .map base size writable => ([], m.mapZero base size writable)
  | .mapBytes base bytes writable => ([], m.map base bytes writable)
  | .unmap base => ((m.unmap base).1.2, (m.unmap base).2)
  | .write address bytes => ((m.write address bytes).1.toOption.getD [], (m.write address bytes).2)
  | .track address size => ([], m.track address size)
  | .subscribe => ([], m.subscribe)

def acts (m : Memory) (actions : List Action) : Memory :=
  actions.foldl (fun m action => (m.act action).2) m

/-- The action maps no range that meets a region of the memory. -/
def Action.Spares (m : Memory) : Action → Prop
  | .map base size _ => m.Spares base size
  | .mapBytes base bytes _ => m.Spares base bytes.size
  | _ => True

instance (m : Memory) (action : Action) : Decidable (action.Spares m) := by
  cases action <;> unfold Action.Spares <;> infer_instance

/-- What the action maps or tracks ends inside the address space. -/
def Action.Fits : Action → Prop
  | .map base size _ | .track base size => base.toNat + size < UInt64.size
  | .mapBytes base bytes _ => base.toNat + bytes.size < UInt64.size
  | _ => True

variable {action : Action}

theorem Sound.act (h : m.Sound) (hfits : action.Fits) : (m.act action).2.Sound := by
  cases action with
  | map base size writable => exact h.insert ⟨base, .zero size, writable⟩ hfits
  | mapBytes base bytes writable => exact h.insert ⟨base, .ofArray bytes, writable⟩ hfits
  | unmap base => exact h.sublist (m.unmap_sublist base)
  | write address bytes =>
    rcases m.write_cases address bytes with ⟨e, he⟩ | ⟨r, hr, hok⟩
    · simpa [Memory.act, he] using h
    · simpa [Memory.act, hok] using h.store address bytes
  | track address size => exact h.congr (m.regions_track address size)
  | subscribe => exact h.congr rfl

theorem sound_acts {actions : List Action} (h : ∀ action ∈ actions, action.Fits) :
    (empty.acts actions).Sound := by
  unfold acts
  exact List.foldlRecOn actions _ sound_empty fun _ hm action ha => hm.act (h action ha)

/-- An event is about bytes inside the address space. -/
theorem Sound.range_lt (h : m.Sound) {d : Delivery} (hd : d ∈ (m.act action).1) :
    d.event.range.1.toNat + d.event.range.2 < UInt64.size := by
  cases action with
  | unmap base =>
    simp only [Memory.act, Memory.unmap] at hd
    split at hd
    next r hr =>
      obtain ⟨-, -, rfl⟩ := List.mem_map.mp hd
      exact h.bounded r (List.mem_of_find?_eq_some hr)
    next => cases hd
  | write address bytes =>
    rcases m.write_cases address bytes with ⟨e, he⟩ | ⟨r, hr, hok⟩
    · simp [Memory.act, he, Except.toOption] at hd
    · simp only [Memory.act, hok, Except.toOption, Option.getD_some] at hd
      obtain ⟨-, -, rfl⟩ := List.mem_map.mp (List.mem_ite_nil_right.mp hd).2
      exact (contains_of_region? hr).2.1
  | _ => cases hd

/-- A byte that changes is covered by an event that every handler hears of, if its page is
tracked. -/
theorem exists_delivery {b : UInt8} (hspares : action.Spares m) (htracked : m.Tracks a)
    (hbyte : m.byte? a = some b) (hchange : (m.act action).2.byte? a ≠ some b) :
    ∃ e : MemoryEvent, e.Covers a ∧ ∀ h < m.handlers, ⟨h, e⟩ ∈ (m.act action).1 := by
  obtain ⟨r, hr, -⟩ := Option.map_eq_some_iff.mp hbyte
  rw [← hbyte] at hchange
  cases action with
  | map base size writable =>
    exact absurd (byte?_insert ⟨base, .zero size, writable⟩ hspares hr) hchange
  | mapBytes base bytes writable =>
    exact absurd (byte?_insert ⟨base, .ofArray bytes, writable⟩ hspares hr) hchange
  | track address size => exact absurd (byte?_congr (m.regions_track address size) a) hchange
  | subscribe => exact absurd rfl hchange
  | unmap base =>
    have hfind : m.regions.find? (·.base == base) = some r :=
      not_not.mp fun hne => hchange (byte?_unmap hr hne)
    refine ⟨.unmapped r.base r.size, ?_, fun h hh => ?_⟩
    · have hcontains := contains_of_region? hr
      exact ⟨hcontains.1, hcontains.2.2⟩
    · simpa [act, unmap, hfind] using mem_notify hh
  | write address bytes =>
    rcases m.write_cases address bytes with ⟨e, he⟩ | ⟨-, -, hok⟩
    · simp [act, he] at hchange
    · have hcovers : address.toNat ≤ a.toNat ∧ a.toNat < address.toNat + bytes.length := by
        by_contra hnot
        refine hchange ?_
        have hnone : byteFrom address bytes a = none := byteFrom_eq_none_iff.mpr (by omega)
        have hstore : (m.store address bytes).byte? a =
            (m.byte? a).map (byteFrom address bytes a).getD :=
          byte?_storeIn m.regions fun _ _ _ hsome => absurd hnone hsome
        simp [act, hok, hstore, getD_byteFrom hnone]
      refine ⟨.codeWritten address bytes.length, hcovers, fun h hh => ?_⟩
      simpa [act, hok, Except.toOption, htracked.touches hcovers.1 hcovers.2] using mem_notify hh

/-- Whenever an action makes a mapped byte of a tracked page disappear or change, every handler
hears of an event that covers the byte, unless the action maps a range that meets a region. -/
theorem tracked_change_reported (m : Memory) (action : Action) (hspares : action.Spares m)
    (a : UInt64) (b : UInt8) (htracked : m.Tracks a) (hbyte : m.byte? a = some b)
    (hchange : (m.act action).2.byte? a ≠ some b) :
    ∀ h < m.handlers, ∃ e : MemoryEvent, e.Covers a ∧ ⟨h, e⟩ ∈ (m.act action).1 := by
  obtain ⟨e, hcovers, hmem⟩ := exists_delivery hspares htracked hbyte hchange
  exact fun h hh => ⟨e, hcovers, hmem h hh⟩

def trackedWord : Memory :=
  ((empty.map 0x1000 #[0xaa, 0xbb, 0xcc, 0xdd] true).track 0x1000 4).subscribe

theorem tracked_change_reported_trackedWord :
    trackedWord.byte? 0x1003 = some 0xdd ∧
      (trackedWord.act (.write 0x1002 [0xcc, 0x11])).2.byte? 0x1003 = some 0x11 ∧
      ∃ e : MemoryEvent, e.Covers 0x1003 ∧
        ⟨0, e⟩ ∈ (trackedWord.act (.write 0x1002 [0xcc, 0x11])).1 :=
  ⟨by decide, by decide, tracked_change_reported trackedWord (.write 0x1002 [0xcc, 0x11])
    (by decide) 0x1003 0xdd (by decide) (by decide) (by decide) 0 (by decide)⟩

/-- Mapping over tracked code changes it, and no handler hears of it. -/
theorem mapping_over_code_unreported :
    trackedWord.Tracks 0x1000 ∧ trackedWord.byte? 0x1000 = some 0xaa ∧ 0 < trackedWord.handlers ∧
      (trackedWord.act (.mapBytes 0x1000 #[1, 2, 3, 4] true)).2.byte? 0x1000 = some 1 ∧
      (trackedWord.act (.mapBytes 0x1000 #[1, 2, 3, 4] true)).1 = [] := by
  decide

end Memory

end Dynarec.Guest
