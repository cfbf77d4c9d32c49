import Dynarec.Proofs.Guest.MemoryEvents

/-!
# Memory as the outcome of its history

A byte that can be read is the one that the last mapping or successful write over it put there, and
a page is tracked once a range that touches it was.
-/

namespace Dynarec.Guest

namespace Memory

open List

variable {m : Memory} {a address : UInt64} {b : UInt8} {n : Nat} {r : Region}
  {bytes : List UInt8} {action : Action} {actions : List Action}

/-- The byte that an action puts at `a`. -/
def puts (m : Memory) (a : UInt64) : Action → Option UInt8
  | .map base size _ => byteFrom base (replicate size 0) a
  | .mapBytes base bytes _ => byteFrom base bytes.toList a
  | .write address bytes =>
    if (m.write address bytes).1.isOk then byteFrom address bytes a else none
  | _ => none

/-- The byte that the last of the actions to put one at `a` put there, or `last`. -/
def lastPut (a : UInt64) (m : Memory) (last : Option UInt8) : List Action → Option UInt8
  | [] => last
  | action :: rest => lastPut a (m.act action).2 ((m.puts a action).or last) rest

theorem exists_region (h : m.byte? a = some b) :
    ∃ r ∈ m.regions, r.contains a 1 = true ∧ r.contents.get (r.offset a) = b := by
  obtain ⟨r, hr, rfl⟩ := Option.map_eq_some_iff.mp h
  exact ⟨r, mem_of_find?_eq_some hr, by simpa using find?_some hr, rfl⟩

theorem Sound.byte?_eq (h : m.Sound) (hr : r ∈ m.regions) (ha : r.contains a 1 = true) :
    m.byte? a = some (r.contents.get (r.offset a)) := by
  rw [byte?, h.region?_eq hr ha]
  rfl

theorem Sound.byte?_insert (h : m.Sound) (region : Region)
    (hbytes : ∀ i, bytes[i]? = if i < region.size then some (region.contents.get i) else none)
    (hb : (m.insert region).byte? a = some b) :
    (byteFrom region.base bytes a).or (m.byte? a) = some b := by
  obtain ⟨r, hr, ha, rfl⟩ := exists_region hb
  have ha' := Region.contains_iff.mp ha
  unfold byteFrom
  unfold Region.limit at ha'
  rcases mem_cons.mp ((m.perm_insert region).mem_iff.mp hr) with rfl | hr
  · rw [if_pos ha'.1, hbytes, if_pos (by omega), Region.offset_eq ha'.1]
    rfl
  · obtain ⟨hr, hkeep⟩ := mem_filter.mp hr
    simp only [Bool.or_eq_true, decide_eq_true_eq] at hkeep
    unfold Region.limit at hkeep
    rw [h.byte?_eq hr ha]
    split
    · rw [hbytes, if_neg (by omega)]
      rfl
    · rfl

/-- A successful write changes the bytes that it covers and no other ones. -/
theorem Sound.byte?_write (h : m.Sound) (hok : (m.write address bytes).1.isOk = true)
    (a : UInt64) :
    (m.write address bytes).2.byte? a = (byteFrom address bytes a).or (m.byte? a) := by
  rcases m.write_cases address bytes with ⟨e, he⟩ | ⟨r, hr, hwrite⟩
  · simp [he, Except.isOk, Except.toBool] at hok
  · have hregion (hsome : byteFrom address bytes a ≠ none) : m.region? a 1 = some r := by
      rw [Ne, byteFrom_eq_none_iff] at hsome
      exact h.region?_byte hr (by omega) (by omega)
    have hstore : (m.store address bytes).byte? a =
        (m.byte? a).map (byteFrom address bytes a).getD := by
      refine byte?_storeIn m.regions fun s hs ha hsome => ?_
      cases (h.region?_eq hs ha).symm.trans (hregion hsome)
      simpa using find?_some hr
    rw [hwrite, hstore]
    by_cases hnone : byteFrom address bytes a = none
    · rw [getD_byteFrom hnone, hnone, Option.map_id, Option.none_or]
      rfl
    · obtain ⟨b, hb⟩ := Option.ne_none_iff_exists'.mp hnone
      simp [byte?, hregion hnone, hb]

theorem Sound.byte?_act (h : m.Sound) (hb : (m.act action).2.byte? a = some b) :
    (m.puts a action).or (m.byte? a) = some b := by
  cases action with
  | map base size writable =>
    refine h.byte?_insert ⟨base, .zero size, writable⟩ (fun i => ?_) hb
    simp [Region.size, Contents.get, Contents.zero, getElem?_replicate]
  | mapBytes base bytes writable =>
    refine h.byte?_insert ⟨base, .ofArray bytes, writable⟩ (fun i => ?_) hb
    simp only [Region.size, Contents.get, Contents.ofArray]
    split <;> simp_all
  | unmap base =>
    obtain ⟨r, hr, ha, rfl⟩ := exists_region hb
    exact h.byte?_eq ((m.unmap_sublist base).subset hr) ha
  | write address bytes =>
    rcases m.write_cases address bytes with ⟨e, he⟩ | ⟨-, -, hwrite⟩
    · simpa [puts, he, Memory.act, Except.isOk, Except.toBool] using hb
    · have hok : (m.write address bytes).1.isOk = true := by rw [hwrite]; rfl
      rw [puts, if_pos hok, ← h.byte?_write hok]
      exact hb
  | track address size => exact (byte?_congr (m.regions_track address size) a).symm.trans hb
  | subscribe => exact hb

theorem Sound.byte?_acts (h : m.Sound) (hfits : ∀ action ∈ actions, action.Fits)
    {last : Option UInt8} (hlast : ∀ b, m.byte? a = some b → last = some b)
    (hb : (m.acts actions).byte? a = some b) : lastPut a m last actions = some b := by
  induction actions generalizing m last with
  | nil => exact hlast b hb
  | cons action rest ih =>
    have hfits := forall_mem_cons.mp hfits
    refine ih (h.act hfits.1) hfits.2 (fun b hb => ?_) hb
    have hputs := h.byte?_act hb
    cases hput : m.puts a action with
    | none => exact hlast b (by simpa [hput] using hputs)
    | some c => simpa [hput] using hputs

/-! ### Tracked pages -/

theorem any_tracked_act (f : PageRange → Bool) : (m.act action).2.tracked.any f = true ↔
    m.tracked.any f = true ∨ ∃ t s, action = .track t s ∧ (pages? t s).any f = true := by
  cases action with
  | track t s =>
    simp only [Memory.act, Memory.track]
    split
    next p hp =>
      split
      next hold =>
        have hany : f p = true → m.tracked.any f = true := fun hf =>
          any_eq_true.mpr ⟨p, by simpa using hold, hf⟩
        simpa [hp] using hany
      next => simp [hp, or_comm]
    next hp => simp [hp]
  | unmap base =>
    simp only [Memory.act, unmap]
    split <;> simp
  | write address bytes =>
    rcases m.write_cases address bytes with ⟨e, he⟩ | ⟨-, -, hok⟩
    · simp [Memory.act, he]
    · simp [Memory.act, hok, store]
  | _ => simp [Memory.act, mapZero, Memory.map, Memory.insert, subscribe]

theorem any_tracked_acts (f : PageRange → Bool) : (m.acts actions).tracked.any f = true ↔
    m.tracked.any f = true ∨ ∃ t s, .track t s ∈ actions ∧ (pages? t s).any f = true := by
  induction actions generalizing m with
  | nil => simp [acts]
  | cons action rest ih =>
    refine ih.trans ?_
    rw [any_tracked_act, or_assoc]
    simp only [mem_cons, or_and_right, exists_or, eq_comm]

/-- Ranges of pages meet if two bytes lie in one page. -/
theorem pages_meet (t : UInt64) (s : Nat) : ((pages? address n).any fun p =>
      (pages? t s).any fun q => q.first ≤ p.last && p.first ≤ q.last) = true ↔
    ∃ i < n, ∃ j < s, (address.toNat + i) / pageSize = (t.toNat + j) / pageSize := by
  unfold pages?
  by_cases hn : n = 0
  · simp [hn]
  by_cases hs : s = 0
  · simp [hs]
  simp only [hn, hs, if_false, Option.any_some, Bool.and_eq_true, decide_eq_true_eq, pageSize]
  constructor
  · intro ⟨hfirst, hlast⟩
    refine ⟨t.toNat / 0x1000 * 0x1000 - address.toNat, by omega,
      address.toNat / 0x1000 * 0x1000 - t.toNat, by omega, by omega⟩
  · intro ⟨i, hi, j, hj, hpage⟩
    omega

/-- A memory is what its actions made of it, as long as what they map ends inside the address space.
Its regions are sorted and lie apart. A read succeeds if one region holds all of it, and returns the
last bytes put there. A successful write puts its bytes there and leaves the others, and a failed
one does nothing. An access touches tracked code if it shares a page with a range tracked before. -/
theorem acts_determine_memory (actions : List Action) (hfits : ∀ action ∈ actions, action.Fits)
    (m : Memory) (hm : m = empty.acts actions) (address : UInt64) (n : Nat) (bytes : List UInt8) :
    m.regions.Pairwise (fun r s => r.base.toNat ≤ s.base.toNat ∧ r.Apart s) ∧
      ((m.read address n).isOk = true ↔
        ∃ r ∈ m.regions, r.base.toNat ≤ address.toNat ∧ address.toNat + n ≤ r.limit) ∧
      (∀ found, m.read address n = .ok found → found.length = n ∧
        ∀ i < n, found[i]? = lastPut (address + i.toUInt64) empty none actions) ∧
      ((m.write address bytes).1.isOk = true → ∀ a,
        (m.write address bytes).2.byte? a = (byteFrom address bytes a).or (m.byte? a)) ∧
      (∀ e, (m.write address bytes).1 = .error e → m.act (.write address bytes) = ([], m)) ∧
      (m.touchesTracked address n = true ↔ ∃ t s, .track t s ∈ actions ∧
        ∃ i < n, ∃ j < s, (address.toNat + i) / pageSize = (t.toNat + j) / pageSize) := by
  have h : m.Sound := hm ▸ sound_acts hfits
  refine ⟨h.sorted.and h.apart, ?_, fun found hread => ⟨length_of_read hread, fun i hi => ?_⟩,
    fun hok => h.byte?_write hok, fun e he => ?_, ?_⟩
  · have hread : (m.read address n).isOk = (m.region? address n).isSome := by
      unfold Memory.read
      split <;> simp_all [Except.isOk, Except.toBool]
    rw [hread, region?, find?_isSome]
    refine exists_congr fun r => and_congr_right fun hr => ?_
    have hlimit := h.bounded r hr
    rw [Region.contains_iff]
    omega
  · have hbyte := h.byte?_of_read hread hi
    have hfound := getElem?_eq_getElem (length_of_read hread ▸ hi)
    rw [hfound]
    exact (sound_empty.byte?_acts hfits (fun _ hb => hb) (hm ▸ hbyte.trans hfound)).symm
  · rcases m.write_cases address bytes with ⟨e', he'⟩ | ⟨-, -, hok⟩
    · simp [Memory.act, he', Except.toOption]
    · rw [hok] at he
      cases he
  · rw [touchesTracked, hm]
    simp only [← pages_meet]
    cases pages? address n with
    | none => simp
    | some p =>
      rw [Option.any_some, any_tracked_acts]
      simp [empty]

/-- A region is mapped over another one and written to. -/
def overlaying : List Action :=
  [.map 0x1000 8 true, .mapBytes 0x1002 #[1, 2, 3] true, .write 0x1003 [9]]

theorem acts_determine_memory_overlaying :
    (empty.acts overlaying).read 0x1002 3 = .ok [1, 9, 3] ∧
      lastPut (0x1002 + 1) empty none overlaying = some 9 := by
  have hread : (empty.acts overlaying).read 0x1002 3 = .ok [1, 9, 3] := by decide
  have hfits : ∀ action ∈ overlaying, action.Fits := by
    simp [overlaying, Action.Fits]
    decide
  obtain ⟨-, -, hlast, -⟩ := acts_determine_memory overlaying hfits _ rfl 0x1002 3 []
  exact ⟨hread, ((hlast _ hread).2 1 (by decide)).symm⟩

end Memory

end Dynarec.Guest
