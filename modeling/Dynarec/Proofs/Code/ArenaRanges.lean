import Dynarec.Code.Arena
import Mathlib.Data.List.Basic

/-!
# Ranges of the arena

An arena comes about by taking ranges and giving back ranges in use. Every offset is in exactly one
range, a free one or one in use, whatever was taken and given back and in which order.
-/

namespace Dynarec.Code

def Range.covers (r : Range) (x : Nat) : Bool := r.offset ≤ x ∧ x < r.limit

theorem Range.toNat_covers (r : Range) (x : Nat) :
    (r.covers x).toNat = if r.offset ≤ x ∧ x < r.offset + r.size then 1 else 0 := by
  rw [covers, Range.limit]
  split <;> simp [*]

namespace Arena

variable {a a' : Arena} {live : List Range} {r s : Range} {x : Nat}

def covering (l : List Range) (x : Nat) : Nat := l.countP (·.covers x)

theorem covering_cons (r : Range) (l : List Range) (x : Nat) :
    covering (r :: l) x = covering l x + (r.covers x).toNat := by
  unfold covering
  rw [List.countP_cons]
  cases r.covers x <;> rfl

theorem covering_append (l l' : List Range) (x : Nat) :
    covering (l ++ l') x = covering l x + covering l' x :=
  List.countP_append

/-- Two ranges that touch cover what the range of both covers. -/
theorem covers_join (offset m n x : Nat) :
    ((⟨offset, m + n⟩ : Range).covers x).toNat =
      ((⟨offset, m⟩ : Range).covers x).toNat + ((⟨offset + m, n⟩ : Range).covers x).toNat := by
  simp only [Range.toNat_covers]
  split <;> split <;> split <;> omega

/-- A cut takes the front of a range, and the ranges before and after it stay. -/
theorem cut_spec {size offset : Nat} {l rest : List Range} (h : cut size l = some (offset, rest)) :
    ∃ first length last, l = first ++ ⟨offset, length⟩ :: last ∧ size ≤ length ∧
      rest = first ++ if length = size then last else ⟨offset + size, length - size⟩ :: last := by
  induction l generalizing rest with
  | nil => cases h
  | cons r l ih =>
    rw [cut] at h
    split at h
    next hle =>
      cases h
      exact ⟨[], r.size, l, rfl, hle, rfl⟩
    next =>
      obtain ⟨⟨offset', rest'⟩, hcut, heq⟩ := Option.map_eq_some_iff.mp h
      cases heq
      obtain ⟨first, length, last, rfl, hle, rfl⟩ := ih hcut
      exact ⟨r :: first, length, last, rfl, hle, rfl⟩

theorem covering_cut {size offset : Nat} {l rest : List Range}
    (h : cut size l = some (offset, rest)) (x : Nat) :
    covering l x = covering rest x + ((⟨offset, size⟩ : Range).covers x).toNat := by
  obtain ⟨first, length, last, rfl, hle, rfl⟩ := cut_spec h
  rw [covering_append, covering_append, covering_cons]
  split
  next heq => rw [heq, Nat.add_assoc]
  next =>
    have hjoin := covers_join offset size (length - size) x
    rw [Nat.add_sub_cancel' hle] at hjoin
    rw [covering_cons]
    omega

theorem covering_joinNext (r : Range) (l : List Range) (x : Nat) :
    covering (joinNext r l) x = covering l x + (r.covers x).toNat := by
  cases l with
  | nil => exact covering_cons r [] x
  | cons s rest =>
    obtain ⟨offset, size⟩ := r
    obtain ⟨start, length⟩ := s
    rw [joinNext]
    split
    next htouch =>
      obtain rfl : offset + size = start := htouch
      have hjoin := covers_join offset size length x
      rw [covering_cons, covering_cons, hjoin]
      omega
    next => exact covering_cons _ _ x

theorem covering_insertFree (r : Range) (l : List Range) (x : Nat) :
    covering (insertFree r l) x = covering l x + (r.covers x).toNat := by
  induction l with
  | nil => exact covering_cons r [] x
  | cons s rest ih =>
    obtain ⟨offset, size⟩ := r
    obtain ⟨start, length⟩ := s
    rw [insertFree]
    split
    next =>
      split
      next htouch =>
        obtain rfl : start + length = offset := htouch
        have hjoin := covers_join start length size x
        rw [covering_joinNext, hjoin, covering_cons, Nat.add_assoc]
      next =>
        rw [covering_cons, covering_cons]
        omega
    next => exact covering_joinNext _ _ x

/-! ### Use -/

/-- How an arena comes about, and the ranges in use: a range is in use once it is taken, and only a
range in use is given back. -/
inductive Uses : Arena → List Range → Prop
  | fresh (size : Nat) : Uses (ofSize size) []
  | allocate {a a' : Arena} {live : List Range} {code : List UInt8} {r : Range} (h : Uses a live)
      (htaken : a.allocate code = .ok (r, a')) : Uses a' (r :: live)
  | release {a : Arena} {live rest : List Range} {r : Range} (h : Uses a live)
      (hlive : live.Perm (r :: rest)) : Uses (a.release r) rest

/-- Every offset of the arena is in one range, a free one or one in use. -/
structure Tiled (a : Arena) (live : List Range) : Prop where
  count : a.liveAllocations = live.length
  nonempty : ∀ r ∈ live, 0 < r.size
  once : ∀ x, covering (live ++ a.free) x = if x < a.capacity then 1 else 0

theorem Tiled.covers_offset (h : a.Tiled live) (hr : r ∈ live) : r.covers r.offset = true := by
  have hpos := h.nonempty r hr
  simp [Range.covers, Range.limit, hpos]

theorem rangeSize_bounds (n : Nat) : 0 < rangeSize n ∧ n ≤ rangeSize n := by
  unfold rangeSize roundUp alignment
  omega

theorem allocate_spec {code : List UInt8} (h : a.allocate code = .ok (r, a')) :
    cut (rangeSize code.length) a.free = some (r.offset, a'.free) ∧
      r.size = rangeSize code.length ∧ a'.liveAllocations = a.liveAllocations + 1 ∧
      a'.capacity = a.capacity := by
  simp only [allocate, reserve] at h
  split at h
  next offset free hcut =>
    cases h
    exact ⟨hcut, rfl, rfl, rfl⟩
  next => cases h

theorem tiled_ofSize (size : Nat) : (ofSize size).Tiled [] where
  count := rfl
  nonempty := nofun
  once x := by
    rw [List.nil_append, ofSize, covering_cons, Range.toNat_covers]
    simp [covering]

theorem Tiled.allocate (h : a.Tiled live) {code : List UInt8}
    (htaken : a.allocate code = .ok (r, a')) : a'.Tiled (r :: live) := by
  obtain ⟨hcut, hsize, hcount, hcapacity⟩ := allocate_spec htaken
  refine ⟨by rw [hcount, h.count, List.length_cons], fun s hs => ?_, fun x => ?_⟩
  · rcases List.mem_cons.mp hs with rfl | hs
    · rw [hsize]
      exact (rangeSize_bounds _).1
    · exact h.nonempty s hs
  · have hx := h.once x
    rw [covering_append, covering_cut hcut] at hx
    rw [hcapacity, ← hx, List.cons_append, covering_cons, covering_append, ← hsize, Nat.add_assoc]

theorem Tiled.release {rest : List Range} (h : a.Tiled live) (hlive : live.Perm (r :: rest)) :
    (a.release r).Tiled rest := by
  refine ⟨?_, fun s hs => h.nonempty s (hlive.mem_iff.mpr (.tail _ hs)), fun x => ?_⟩
  · have hlength := hlive.length_eq
    rw [List.length_cons] at hlength
    change a.liveAllocations - 1 = rest.length
    rw [h.count, hlength, Nat.add_sub_cancel]
  · have hx := h.once x
    have hperm : covering live x = covering (r :: rest) x := hlive.countP_eq _
    rw [covering_append, hperm, covering_cons] at hx
    change _ = if x < a.capacity then 1 else 0
    rw [covering_append, Arena.release, covering_insertFree]
    omega

namespace Uses

theorem tiled (h : a.Uses live) : a.Tiled live := by
  induction h with
  | fresh size => exact tiled_ofSize size
  | allocate _ htaken ih => exact ih.allocate htaken
  | release _ hlive ih => exact ih.release hlive

/-- A range in use starts inside the arena. -/
theorem offset_lt (h : a.Uses live) (hr : r ∈ live) : r.offset < a.capacity := by
  have hx := h.tiled.once r.offset
  have hcovers := h.tiled.covers_offset hr
  have hpos : 0 < covering (live ++ a.free) r.offset :=
    List.countP_pos_iff.mpr ⟨r, List.mem_append_left _ hr, hcovers⟩
  by_contra hge
  rw [if_neg hge] at hx
  omega

/-- Two ranges in use start at different offsets. -/
theorem offset_ne {rest : List Range} (h : a.Uses live) (hlive : live.Perm (r :: s :: rest)) :
    r.offset ≠ s.offset := by
  intro heq
  have hr := h.tiled.covers_offset (hlive.mem_iff.mpr (.head _))
  have hs := h.tiled.covers_offset (hlive.mem_iff.mpr (.tail _ (.head _)))
  have hx := h.tiled.once r.offset
  have hperm : covering live r.offset = covering (r :: s :: rest) r.offset := hlive.countP_eq _
  rw [covering_append, hperm, covering_cons, covering_cons, hr, heq, hs] at hx
  simp only [Bool.toNat_true] at hx
  split at hx <;> omega

end Uses

theorem address_ne (hr : r.offset < UInt64.size) (hs : s.offset < UInt64.size)
    (hne : r.offset ≠ s.offset) : address r ≠ address s := by
  intro heq
  have hoffset : r.offset.toUInt64 = s.offset.toUInt64 := (UInt64.add_right_inj base).mp heq
  apply hne
  rw [← UInt64.toNat_ofNat_of_lt' hr, ← UInt64.toNat_ofNat_of_lt' hs]
  exact congrArg UInt64.toNat hoffset

end Arena

end Dynarec.Code
