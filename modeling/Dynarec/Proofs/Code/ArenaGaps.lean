import Dynarec.Proofs.Code.ArenaRanges
import Mathlib.Order.Nat
import Mathlib.Algebra.BigOperators.Group.List.Basic
import Mathlib.Algebra.GroupWithZero.Nat

/-!
# Free ranges are gaps

The free ranges of an arena stand in order and never touch, so they are the gaps between the ranges
in use: an allocation fails only if no gap is large enough. A range in use keeps its bytes until it
is given back.
-/

namespace Dynarec.Code

open List Range

namespace Range

variable {r s : Range} {x : Nat}

theorem covers_iff : r.covers x = true ↔ r.offset ≤ x ∧ x < r.limit := decide_eq_true_iff

def Apart (r s : Range) : Prop := r.limit ≤ s.offset ∨ s.limit ≤ r.offset

instance (r s : Range) : Decidable (r.Apart s) := inferInstanceAs (Decidable (_ ∨ _))

theorem Apart.symm (h : r.Apart s) : s.Apart r := Or.symm h

end Range

namespace Arena

variable {a a' : Arena} {live l : List Range} {r s g : Range} {x : Nat} {size offset : Nat}
  {rest : List Range} {code : List UInt8} {e : RunError}

theorem covering_pos (hr : r ∈ l) (hx : r.covers x = true) : 0 < covering l x :=
  countP_pos_iff.mpr ⟨r, hr, hx⟩

/-- Ranges of which no offset is in two are apart. -/
theorem pairwise_apart (hsize : ∀ r ∈ l, 0 < r.size) (h : ∀ x, covering l x ≤ 1) :
    l.Pairwise Range.Apart := by
  induction l with
  | nil => exact .nil
  | cons r l ih =>
    have hrest : ∀ x, covering l x ≤ 1 := fun x => by
      have hx := h x
      rw [covering_cons] at hx
      omega
    refine .cons (fun s hs => ?_) (ih (fun s hs => hsize s (.tail _ hs)) hrest)
    by_contra hmeet
    -- ranges that are not apart have an offset in common
    obtain ⟨x, hrx, hsx⟩ : ∃ x, r.covers x = true ∧ s.covers x = true := by
      have hr := hsize r (.head _)
      have hs := hsize s (.tail _ hs)
      refine ⟨max r.offset s.offset, ?_⟩
      simp only [Range.covers_iff, Range.Apart, Range.limit] at hmeet ⊢
      omega
    have hx := h x
    have hpos := covering_pos hs hsx
    rw [covering_cons, hrx, Bool.toNat_true] at hx
    omega

/-! ### Order of the free ranges -/

/-- Ranges in ascending order of which none is empty and no two touch. -/
structure Spaced (l : List Range) : Prop where
  order : l.Pairwise fun r s => r.limit < s.offset
  nonempty : ∀ r ∈ l, 0 < r.size

theorem Spaced.cons (h : Spaced l) (hr : 0 < r.size) (hlt : ∀ s ∈ l, r.limit < s.offset) :
    Spaced (r :: l) where
  order := .cons hlt h.order
  nonempty := forall_mem_cons.mpr ⟨hr, h.nonempty⟩

theorem Spaced.tail (h : Spaced (r :: l)) : Spaced l where
  order := h.order.of_cons
  nonempty := (forall_mem_cons.mp h.nonempty).2

theorem Spaced.limit_lt (h : Spaced (r :: l)) (hs : s ∈ l) : r.limit < s.offset :=
  (pairwise_cons.mp h.order).1 s hs

theorem Spaced.cut (h : Spaced l) (hcut : cut size l = some (offset, rest)) : Spaced rest := by
  obtain ⟨first, length, last, rfl, hle, rfl⟩ := cut_spec hcut
  split
  next =>
    have hsub : (first ++ last).Sublist (first ++ ⟨offset, length⟩ :: last) :=
      (sublist_cons_self _ _).append_left first
    exact ⟨h.order.sublist hsub, fun r hr => h.nonempty r (hsub.subset hr)⟩
  next hne =>
    -- what is left of the range ends where the range did
    obtain ⟨hfirst, hrest, hbefore⟩ := pairwise_append.mp h.order
    obtain ⟨hafter, hlast⟩ := pairwise_cons.mp hrest
    refine ⟨pairwise_append.mpr ⟨hfirst, hlast.cons fun s hs => ?_, fun r hr s hs => ?_⟩,
      fun r hr => ?_⟩
    · have hlt := hafter s hs
      simp only [limit] at hlt ⊢
      omega
    · rcases mem_cons.mp hs with rfl | hs
      · exact (hbefore r hr _ (.head _)).trans_le (Nat.le_add_right _ _)
      · exact hbefore r hr s (.tail _ hs)
    · rcases mem_append.mp hr with hr | hr
      · exact h.nonempty r (mem_append_left _ hr)
      · rcases mem_cons.mp hr with rfl | hr
        · exact Nat.sub_pos_of_lt (hle.lt_of_ne (Ne.symm hne))
        · exact h.nonempty r (mem_append_right _ (.tail _ hr))

theorem Spaced.joinNext (h : Spaced l) (hr : 0 < r.size) (hle : ∀ s ∈ l, r.limit ≤ s.offset) :
    Spaced (joinNext r l) := by
  cases l with
  | nil => exact h.cons hr (forall_mem_nil _)
  | cons s rest =>
    have hs : ∀ t ∈ rest, s.limit < t.offset := fun t ht => h.limit_lt ht
    rw [Arena.joinNext]
    split
    next htouch =>
      refine h.tail.cons (Nat.add_pos_left hr _) fun t ht => ?_
      have hlt := hs t ht
      simp only [limit] at hlt htouch ⊢
      omega
    next hfree =>
      have hsep : r.limit < s.offset := (hle s (.head _)).lt_of_ne hfree
      refine h.cons hr fun t ht => ?_
      rcases mem_cons.mp ht with rfl | ht
      · exact hsep
      · have hlt := hs t ht
        simp only [limit] at hlt hsep ⊢
        omega

theorem offset_joinNext (hs : s ∈ joinNext r l) : s.offset = r.offset ∨ s ∈ l := by
  cases l with
  | nil => exact .inl (congrArg offset (mem_singleton.mp hs))
  | cons t rest =>
    rw [joinNext] at hs
    split at hs
    · rcases mem_cons.mp hs with rfl | hs
      · exact .inl rfl
      · exact .inr (.tail _ hs)
    · rcases mem_cons.mp hs with rfl | hs
      · exact .inl rfl
      · exact .inr hs

/-- Ranges start where they did before, or where the range does that was put in. -/
theorem offset_insertFree (hs : s ∈ insertFree r l) :
    s.offset = r.offset ∨ ∃ t ∈ l, s.offset = t.offset := by
  induction l with
  | nil => exact .inl (congrArg offset (mem_singleton.mp hs))
  | cons t rest ih =>
    rw [insertFree] at hs
    split at hs
    · split at hs
      · rcases offset_joinNext hs with heq | hs
        · exact .inr ⟨t, .head _, heq⟩
        · exact .inr ⟨s, .tail _ hs, rfl⟩
      · rcases mem_cons.mp hs with rfl | hs
        · exact .inr ⟨s, .head _, rfl⟩
        · rcases ih hs with heq | ⟨u, hu, heq⟩
          · exact .inl heq
          · exact .inr ⟨u, .tail _ hu, heq⟩
    · exact (offset_joinNext hs).imp id fun hs => ⟨s, hs, rfl⟩

theorem Spaced.insertFree (h : Spaced l) (hr : 0 < r.size) (hapart : ∀ s ∈ l, r.Apart s) :
    Spaced (insertFree r l) := by
  induction l with
  | nil => exact h.cons hr (forall_mem_nil _)
  | cons s rest ih =>
    have hs := h.nonempty s (.head _)
    have hlater : ∀ t ∈ rest, s.limit < t.offset := fun t ht => h.limit_lt ht
    have hrest : ∀ t ∈ rest, r.Apart t := fun t ht => hapart t (.tail _ ht)
    rw [Arena.insertFree]
    split
    next hlt =>
      -- the range comes after `s`, so it begins no earlier than `s` ends
      have hafter : s.limit ≤ r.offset := by
        have hsr := hapart s (.head _)
        simp only [Range.Apart, limit] at hsr ⊢
        omega
      split
      next htouch =>
        refine h.tail.joinNext (Nat.add_pos_left hs _) fun t ht => ?_
        have hst := hlater t ht
        have hrt := hrest t ht
        simp only [Range.Apart, limit] at hst hrt htouch ⊢
        omega
      next hsep =>
        refine (ih h.tail hrest).cons hs fun t ht => ?_
        rcases offset_insertFree ht with heq | ⟨u, hu, heq⟩
        · rw [heq]
          exact hafter.lt_of_ne hsep
        · rw [heq]
          exact hlater u hu
    next hge =>
      refine h.joinNext hr fun t ht => ?_
      have hst : s.offset ≤ t.offset := by
        rcases mem_cons.mp ht with rfl | ht
        · exact le_rfl
        · have hlt := hlater t ht
          simp only [limit] at hlt
          omega
      have hrt := hapart t ht
      have hpos := h.nonempty t ht
      simp only [Range.Apart, limit] at hrt ⊢
      omega

/-! ### Arenas in use -/

def Aligned (r : Range) : Prop := alignment ∣ r.offset ∧ alignment ∣ r.size

structure Kept (a : Arena) (live : List Range) : Prop where
  tiled : a.Tiled live
  spaced : Spaced a.free
  aligned : ∀ r ∈ live ++ a.free, Aligned r
  bytes : a.liveBytes = (live.map Range.size).sum

theorem aligned_cut (hsize : alignment ∣ size) (hl : ∀ r ∈ l, Aligned r)
    (h : cut size l = some (offset, rest)) :
    alignment ∣ offset ∧ ∀ r ∈ rest, Aligned r := by
  obtain ⟨first, length, last, rfl, -, rfl⟩ := cut_spec h
  obtain ⟨hfirst, hrest⟩ := forall_mem_append.mp hl
  obtain ⟨hr, hlast⟩ := forall_mem_cons.mp hrest
  refine ⟨hr.1, forall_mem_append.mpr ⟨hfirst, ?_⟩⟩
  split
  · exact hlast
  · exact forall_mem_cons.mpr ⟨⟨Nat.dvd_add hr.1 hsize, Nat.dvd_sub hr.2 hsize⟩, hlast⟩

theorem aligned_joinNext (hr : Aligned r) (hl : ∀ s ∈ l, Aligned s) :
    ∀ s ∈ joinNext r l, Aligned s := by
  cases l with
  | nil => exact forall_mem_singleton.mpr hr
  | cons t rest =>
    obtain ⟨ht, hrest⟩ := forall_mem_cons.mp hl
    rw [joinNext]
    split
    · exact forall_mem_cons.mpr ⟨⟨hr.1, Nat.dvd_add hr.2 ht.2⟩, hrest⟩
    · exact forall_mem_cons.mpr ⟨hr, hl⟩

theorem aligned_insertFree (hr : Aligned r) (hl : ∀ s ∈ l, Aligned s) :
    ∀ s ∈ insertFree r l, Aligned s := by
  induction l with
  | nil => exact forall_mem_singleton.mpr hr
  | cons t rest ih =>
    obtain ⟨ht, hrest⟩ := forall_mem_cons.mp hl
    rw [insertFree]
    split
    · split
      · exact aligned_joinNext ⟨ht.1, Nat.dvd_add ht.2 hr.2⟩ hrest
      · exact forall_mem_cons.mpr ⟨ht, ih hrest⟩
    · exact aligned_joinNext hr hl

theorem Kept.nonempty (h : a.Kept live) : ∀ r ∈ live ++ a.free, 0 < r.size :=
  forall_mem_append.mpr ⟨h.tiled.nonempty, h.spaced.nonempty⟩

theorem Kept.apart (h : a.Kept live) : (live ++ a.free).Pairwise Range.Apart := by
  refine pairwise_apart h.nonempty fun x => ?_
  rw [h.tiled.once]
  split <;> omega

theorem Kept.apart_free (h : a.Kept live) (hr : r ∈ live) (hg : g ∈ a.free) : r.Apart g :=
  (pairwise_append.mp h.apart).2.2 r hr g hg

theorem kept_ofSize (size : Nat) : (ofSize size).Kept [] where
  tiled := tiled_ofSize size
  spaced := by
    refine ⟨pairwise_singleton _ _, forall_mem_singleton.mpr ?_⟩
    have hpage : reservePage ≤ max size reservePage := le_max_right _ _
    simp only [roundUp, reservePage] at hpage ⊢
    omega
  aligned := by
    refine forall_mem_singleton.mpr ⟨Nat.dvd_zero _, ?_⟩
    exact Nat.dvd_trans (by decide) (Nat.dvd_mul_left _ _)
  bytes := rfl

theorem Kept.allocate (h : a.Kept live) (htaken : a.allocate code = .ok (r, a')) :
    a'.Kept (r :: live) := by
  obtain ⟨hcut, hsize, -, -⟩ := allocate_spec htaken
  obtain ⟨hlive, hfree⟩ := forall_mem_append.mp h.aligned
  have hdvd : alignment ∣ rangeSize code.length := Nat.dvd_mul_left _ _
  obtain ⟨hoffset, hrest⟩ := aligned_cut hdvd hfree hcut
  refine ⟨h.tiled.allocate htaken, h.spaced.cut hcut, ?_, ?_⟩
  · exact forall_mem_append.mpr ⟨forall_mem_cons.mpr ⟨⟨hoffset, hsize ▸ hdvd⟩, hlive⟩, hrest⟩
  · rw [map_cons, sum_cons, Nat.add_comm, ← h.bytes]
    simp only [Arena.allocate, reserve] at htaken
    split at htaken <;> cases htaken
    rfl

theorem Kept.release (h : a.Kept live) (hlive : live.Perm (r :: rest)) :
    (a.release r).Kept rest := by
  have hr : r ∈ live := hlive.mem_iff.mpr (.head _)
  obtain ⟨hall, hfree⟩ := forall_mem_append.mp h.aligned
  refine ⟨h.tiled.release hlive, ?_, ?_, ?_⟩
  · exact h.spaced.insertFree (h.tiled.nonempty r hr) fun _ => h.apart_free hr
  · refine forall_mem_append.mpr ⟨fun s hs => ?_, aligned_insertFree (hall r hr) hfree⟩
    exact hall s (hlive.mem_iff.mpr (.tail _ hs))
  · have hsum : (live.map Range.size).sum = r.size + (rest.map Range.size).sum := by
      rw [(hlive.map Range.size).sum_eq, map_cons, sum_cons]
    change a.liveBytes - r.size = _
    rw [h.bytes, hsum, Nat.add_sub_cancel_left]

/-! ### Gaps -/

/-- A gap between ranges: a stretch of the arena that none of them meets, from the end of a range or
the start of the arena to the start of a range or the end of the arena. -/
structure Gap (capacity : Nat) (live : List Range) (g : Range) : Prop where
  nonempty : 0 < g.size
  inside : g.limit ≤ capacity
  vacant : ∀ r ∈ live, g.Apart r
  low : g.offset = 0 ∨ ∃ r ∈ live, r.limit = g.offset
  high : g.limit = capacity ∨ ∃ r ∈ live, r.offset = g.limit

section

variable {capacity : Nat} (hg : Gap capacity live g) (hs : Gap capacity live s)
  (hgx : g.covers x = true) (hsx : s.covers x = true)

include hg hs hgx hsx

/-- A gap begins no later than another that it meets. -/
theorem Gap.offset_le : g.offset ≤ s.offset := by
  rw [covers_iff] at hgx hsx
  rcases hg.low with hzero | ⟨r, hr, hlow⟩
  · omega
  · have hapart := hs.vacant r hr
    simp only [Range.Apart, limit] at hapart hlow hgx hsx
    omega

theorem Gap.le_limit : s.limit ≤ g.limit := by
  rw [covers_iff] at hgx hsx
  rcases hg.high with hend | ⟨r, hr, hhigh⟩
  · exact hend ▸ hs.inside
  · have hapart := hs.vacant r hr
    simp only [Range.Apart, limit] at hapart hhigh hgx hsx ⊢
    omega

/-- Gaps that meet are the same. -/
theorem Gap.eq_of_covers : g = s := by
  have hoffset := (hg.offset_le hs hgx hsx).antisymm (hs.offset_le hg hsx hgx)
  have hlimit := (hs.le_limit hg hsx hgx).antisymm (hg.le_limit hs hgx hsx)
  obtain ⟨start, size⟩ := g
  obtain rfl := hoffset
  obtain rfl := Nat.add_left_cancel hlimit
  rfl

end

/-- The offsets of the arena are those of its ranges. -/
theorem Kept.lt_capacity_iff (h : a.Kept live) :
    x < a.capacity ↔ ∃ r ∈ live ++ a.free, r.offset ≤ x ∧ x < r.limit := by
  have hx := h.tiled.once x
  constructor
  · intro hlt
    rw [if_pos hlt] at hx
    have hpos : 0 < covering (live ++ a.free) x := by omega
    obtain ⟨r, hr, hcovers⟩ := countP_pos_iff.mp hpos
    exact ⟨r, hr, covers_iff.mp hcovers⟩
  · rintro ⟨r, hr, hcovers⟩
    have hpos := covering_pos hr (covers_iff.mpr hcovers)
    by_contra hge
    rw [if_neg hge] at hx
    omega

/-- Free ranges do not touch. -/
theorem Spaced.apart (h : Spaced l) (hr : r ∈ l) (hs : s ∈ l) (hne : r ≠ s) :
    r.limit < s.offset ∨ s.limit < r.offset := by
  induction l with
  | nil => cases hr
  | cons t rest ih =>
    rcases mem_cons.mp hr with rfl | hr' <;> rcases mem_cons.mp hs with rfl | hs'
    · exact absurd rfl hne
    · exact .inl (h.limit_lt hs')
    · exact .inr (h.limit_lt hr')
    · exact ih h.tail hr' hs'

/-- An offset beside a free range is in a range in use, since free ranges do not touch. -/
theorem Kept.exists_beside (h : a.Kept live) (hg : g ∈ a.free) (hx : x < a.capacity)
    (hbeside : x + 1 = g.offset ∨ x = g.limit) :
    ∃ r ∈ live, r.Apart g ∧ r.offset ≤ x ∧ x < r.limit := by
  obtain ⟨r, hr, hcovers⟩ := h.lt_capacity_iff.mp hx
  rcases mem_append.mp hr with hr | hr
  · exact ⟨r, hr, h.apart_free hr hg, hcovers⟩
  · simp only [limit] at hbeside hcovers
    have hne : r ≠ g := by
      rintro rfl
      omega
    have hsep := h.spaced.apart hr hg hne
    simp only [limit] at hsep
    omega

theorem Kept.gap_of_mem (h : a.Kept live) (hg : g ∈ a.free) : Gap a.capacity live g := by
  have hpos := h.spaced.nonempty g hg
  have hinside : g.limit ≤ a.capacity := by
    have hlast : g.limit - 1 < a.capacity :=
      h.lt_capacity_iff.mpr ⟨g, mem_append_right _ hg, by simp only [limit]; omega⟩
    omega
  refine ⟨hpos, hinside, fun r hr => (h.apart_free hr hg).symm, ?_, ?_⟩
  · rcases Nat.eq_zero_or_eq_succ_pred g.offset with hzero | hsucc
    · exact .inl hzero
    obtain ⟨r, hr, hapart, hcovers⟩ := h.exists_beside hg
      (show g.offset.pred < a.capacity by simp only [limit] at hinside; omega) (.inl hsucc.symm)
    refine .inr ⟨r, hr, ?_⟩
    simp only [Range.Apart, limit] at hapart hcovers ⊢
    omega
  · rcases hinside.eq_or_lt with hend | hlt
    · exact .inl hend
    obtain ⟨r, hr, hapart, hcovers⟩ := h.exists_beside hg hlt (.inr rfl)
    refine .inr ⟨r, hr, ?_⟩
    simp only [Range.Apart, limit] at hapart hcovers ⊢
    omega

theorem Kept.mem_of_gap (h : a.Kept live) (hg : Gap a.capacity live g) : g ∈ a.free := by
  have hpos := hg.nonempty
  have hinside := hg.inside
  obtain ⟨s, hs, hstart⟩ := h.lt_capacity_iff.mp
    (show g.offset < a.capacity by simp only [limit] at hinside; omega)
  rcases mem_append.mp hs with hs | hs
  · have hapart := hg.vacant s hs
    simp only [Range.Apart, limit] at hapart hstart
    omega
  have hcovers : g.covers g.offset = true := by
    rw [covers_iff, limit]
    omega
  exact hg.eq_of_covers (h.gap_of_mem hs) hcovers (covers_iff.mpr hstart) ▸ hs

/-- The free ranges are the gaps between the ranges in use. -/
theorem Kept.mem_free_iff (h : a.Kept live) : g ∈ a.free ↔ Gap a.capacity live g :=
  ⟨h.gap_of_mem, h.mem_of_gap⟩

def LargestGap (capacity : Nat) (live : List Range) (n : Nat) : Prop :=
  (∀ g, Gap capacity live g → g.size ≤ n) ∧ (n = 0 ∨ ∃ g, Gap capacity live g ∧ g.size = n)

theorem cut_eq_none : cut size l = none ↔ ∀ r ∈ l, r.size < size := by
  induction l with
  | nil => simp [cut]
  | cons r l ih =>
    rw [cut, forall_mem_cons, ← ih]
    split
    next hle => simp [hle.not_gt]
    next hlt => simp [not_le.mp hlt]

theorem foldl_max_spec (n : Nat) :
    n ≤ l.foldl (fun n r => max n r.size) n ∧
    (∀ r ∈ l, r.size ≤ l.foldl (fun n r => max n r.size) n) ∧
      (l.foldl (fun n r => max n r.size) n = n ∨
        ∃ r ∈ l, r.size = l.foldl (fun n r => max n r.size) n) := by
  induction l generalizing n with
  | nil => simp
  | cons r l ih =>
    obtain ⟨hle, hall, hmax⟩ := ih (max n r.size)
    rw [foldl_cons]
    refine ⟨by omega, forall_mem_cons.mpr ⟨by omega, hall⟩, ?_⟩
    rcases hmax with heq | ⟨s, hs, heq⟩
    · rcases Nat.le_total r.size n with hn | hn
      · exact .inl (by rw [heq, Nat.max_eq_left hn])
      · exact .inr ⟨r, .head _, by rw [heq, Nat.max_eq_right hn]⟩
    · exact .inr ⟨s, .tail _ hs, heq⟩

theorem Kept.largestGap (h : a.Kept live) : LargestGap a.capacity live a.largestFree := by
  obtain ⟨-, hall, hmax⟩ := foldl_max_spec 0
  refine ⟨fun g hg => hall g (h.mem_of_gap hg), hmax.imp id ?_⟩
  rintro ⟨g, hg, heq⟩
  exact ⟨g, h.gap_of_mem hg, heq⟩

theorem allocate_eq_error :
    a.allocate code = .error e ↔ cut (rangeSize code.length) a.free = none ∧
      e = .arenaExhausted (rangeSize code.length) a.largestFree := by
  simp only [allocate, reserve]
  cases hcut : cut (rangeSize code.length) a.free with
  | none => simp [eq_comm]
  | some found => simp [bind, Except.bind, pure, Except.pure]

/-! ### Bytes -/

theorem byte_write (a : Arena) (r : Range) (code : List UInt8) (x : Nat) :
    (a.write r code).byte x = if r.offset ≤ x ∧ x < r.offset + code.length then
      code.getD (x - r.offset) 0 else a.byte x := by
  by_cases h : r.offset ≤ x ∧ x < r.offset + code.length
  · simp [byte, write, h]
  · have hmiss : (decide (r.offset ≤ x) && decide (x < r.offset + code.length)) = false := by
      simpa using h
    rw [if_neg h, byte, byte, write, find?_cons, hmiss]

theorem allocate_writes (h : a.allocate code = .ok (r, a')) (x : Nat) :
    a'.byte x = if r.offset ≤ x ∧ x < r.offset + code.length then
      code.getD (x - r.offset) 0 else a.byte x := by
  simp only [allocate, reserve] at h
  split at h
  · cases h
    exact byte_write _ _ code x
  · cases h

/-- An allocation leaves the bytes outside its range as they are. -/
theorem byte_allocate (h : a.allocate code = .ok (r, a')) (hx : ¬r.covers x = true) :
    a'.byte x = a.byte x := by
  obtain ⟨-, hsize, -, -⟩ := allocate_spec h
  have hle := (rangeSize_bounds code.length).2
  rw [allocate_writes h, if_neg]
  rw [covers_iff, limit] at hx
  omega

/-! ### Sequences of uses -/

inductive Use where
  | allocate (code : List UInt8)
  /-- Give back a range. -/
  | drop (r : Range)
deriving DecidableEq

structure Tenancy where
  arena : Arena
  live : List Range

namespace Tenancy

def ofSize (size : Nat) : Tenancy := ⟨.ofSize size, []⟩

/-- An allocation that fails changes nothing, and only a range in use can be given back. -/
def perform (t : Tenancy) : Use → Tenancy
  | .allocate code =>
    match t.arena.allocate code with
    | .ok (r, arena) => ⟨arena, r :: t.live⟩
    | .error _ => t
  | .drop r => if r ∈ t.live then ⟨t.arena.release r, t.live.erase r⟩ else t

def performAll (t : Tenancy) (uses : List Use) : Tenancy := uses.foldl perform t

variable {t : Tenancy} {u : Use} {uses : List Use}

/-- What a use can do. -/
theorem perform_cases (t : Tenancy) (u : Use) :
    t.perform u = t ∨
      (∃ code r a, u = .allocate code ∧ t.arena.allocate code = .ok (r, a) ∧
        t.perform u = ⟨a, r :: t.live⟩) ∨
      ∃ r ∈ t.live, u = .drop r ∧ t.perform u = ⟨t.arena.release r, t.live.erase r⟩ := by
  cases u with
  | allocate code =>
    rw [perform]
    cases htaken : t.arena.allocate code with
    | error e => exact .inl rfl
    | ok found => exact .inr (.inl ⟨code, found.1, found.2, rfl, htaken, rfl⟩)
  | drop r =>
    rw [perform]
    split
    next hr => exact .inr (.inr ⟨r, hr, rfl, rfl⟩)
    · exact .inl rfl

section

variable (h : t.arena.Kept t.live)

include h

theorem kept_perform (u : Use) : (t.perform u).arena.Kept (t.perform u).live := by
  obtain heq | ⟨code, r, a, -, htaken, heq⟩ | ⟨r, hr, -, heq⟩ := t.perform_cases u
  · rwa [heq]
  · rw [heq]
    exact h.allocate htaken
  · rw [heq]
    exact h.release (perm_cons_erase hr)

theorem kept_performAll (uses : List Use) : (t.performAll uses).arena.Kept (t.performAll uses).live
    := by
  induction uses generalizing t with
  | nil => exact h
  | cons u uses ih => exact ih (kept_perform h u)

omit h in
theorem capacity_perform (t : Tenancy) (u : Use) :
    (t.perform u).arena.capacity = t.arena.capacity := by
  obtain heq | ⟨code, r, a, -, htaken, heq⟩ | ⟨r, -, -, heq⟩ := t.perform_cases u
  · rw [heq]
  · rw [heq]
    exact (allocate_spec htaken).2.2.2
  · rw [heq]
    rfl

omit h in
theorem capacity_performAll (t : Tenancy) (uses : List Use) :
    (t.performAll uses).arena.capacity = t.arena.capacity := by
  induction uses generalizing t with
  | nil => rfl
  | cons u uses ih => exact (ih _).trans (t.capacity_perform u)

/-- A range in use stays in use with its bytes, unless it is the one that is given back. -/
theorem bytes_perform (hr : r ∈ t.live) (hu : u ≠ .drop r) :
    r ∈ (t.perform u).live ∧
      ∀ x, r.covers x = true → (t.perform u).arena.byte x = t.arena.byte x := by
  obtain heq | ⟨code, s, a, -, htaken, heq⟩ | ⟨s, hs, rfl, heq⟩ := t.perform_cases u
  · rw [heq]
    exact ⟨hr, fun _ _ => rfl⟩
  · rw [heq]
    refine ⟨.tail _ hr, fun x hx => byte_allocate htaken fun hsx => ?_⟩
    -- an offset of both ranges would be in two ranges of the arena
    have honce := (h.allocate htaken).tiled.once x
    have hpos := covering_pos hr hx
    rw [covering_append, covering_cons, hsx, Bool.toNat_true] at honce
    split at honce <;> omega
  · rw [heq]
    have hne : r ≠ s := fun hrs => hu (by rw [hrs])
    exact ⟨(mem_erase_of_ne hne).mpr hr, fun _ _ => rfl⟩

theorem bytes_performAll (hr : r ∈ t.live) (huses : .drop r ∉ uses) :
    r ∈ (t.performAll uses).live ∧
      ∀ x, r.covers x = true → (t.performAll uses).arena.byte x = t.arena.byte x := by
  induction uses generalizing t with
  | nil => exact ⟨hr, fun _ _ => rfl⟩
  | cons u uses ih =>
    obtain ⟨hu, huses⟩ := ne_and_not_mem_of_not_mem_cons huses
    obtain ⟨hlive, hbytes⟩ := bytes_perform h hr hu.symm
    obtain ⟨hlive', hbytes'⟩ := ih (kept_perform h u) hlive huses
    exact ⟨hlive', fun x hx => (hbytes' x hx).trans (hbytes x hx)⟩

end

/-- The arena is exact: its free ranges are the gaps between the ranges in use, its counters tell
what is in use, allocations fail only for want of a gap, and code stays where it was put. -/
structure Exact (t : Tenancy) : Prop where
  /-- Free ranges are in ascending order; they neither overlap nor touch. -/
  sorted : t.arena.free.Pairwise fun r s => r.limit < s.offset
  nonempty : ∀ r ∈ t.live ++ t.arena.free, 0 < r.size
  aligned : ∀ r ∈ t.live, alignment ∣ r.offset
  apart : (t.live ++ t.arena.free).Pairwise Range.Apart
  tiles : ∀ x, x < t.arena.capacity ↔ ∃ r ∈ t.live ++ t.arena.free, r.offset ≤ x ∧ x < r.limit
  gaps : ∀ g, g ∈ t.arena.free ↔ Gap t.arena.capacity t.live g
  liveBytes : t.arena.liveBytes = (t.live.map Range.size).sum
  liveAllocations : t.arena.liveAllocations = t.live.length
  fails : ∀ code, (∃ e, t.arena.allocate code = .error e) ↔
    ∀ g, Gap t.arena.capacity t.live g → g.size < rangeSize code.length
  failed : ∀ code e, t.arena.allocate code = .error e → t.perform (.allocate code) = t ∧
    ∃ n, LargestGap t.arena.capacity t.live n ∧ e = .arenaExhausted (rangeSize code.length) n
  allocated : ∀ code r a, t.arena.allocate code = .ok (r, a) →
    t.perform (.allocate code) = ⟨a, r :: t.live⟩ ∧ r.size = rangeSize code.length ∧
      ∀ i < code.length, a.byte (r.offset + i) = code.getD i 0
  stays : ∀ r ∈ t.live, ∀ uses, .drop r ∉ uses → r ∈ (t.performAll uses).live ∧
    ∀ x, r.covers x = true → (t.performAll uses).arena.byte x = t.arena.byte x

theorem exact_of_kept (h : t.arena.Kept t.live) : t.Exact where
  sorted := h.spaced.order
  nonempty := h.nonempty
  aligned r hr := (h.aligned r (mem_append_left _ hr)).1
  apart := h.apart
  tiles _ := h.lt_capacity_iff
  gaps _ := h.mem_free_iff
  liveBytes := h.bytes
  liveAllocations := h.tiled.count
  fails code := by
    simp only [allocate_eq_error, cut_eq_none, h.mem_free_iff]
    exact ⟨fun ⟨_, hgaps, _⟩ => hgaps, fun hgaps => ⟨_, hgaps, rfl⟩⟩
  failed code e he := by
    refine ⟨?_, _, h.largestGap, (allocate_eq_error.mp he).2⟩
    rw [perform, he]
  allocated code r a htaken := by
    refine ⟨by rw [perform, htaken], (allocate_spec htaken).2.1, fun i hi => ?_⟩
    rw [allocate_writes htaken, if_pos ⟨Nat.le_add_right _ _, Nat.add_lt_add_left hi _⟩,
      Nat.add_sub_cancel_left]
  stays _ hr _ huses := bytes_performAll h hr huses

/-- Whatever is allocated and given back, and in which order, an arena stays exact, and its size is
the one asked for, in whole pages. -/
theorem arena_stays_exact (size : Nat) (uses : List Use) :
    ((ofSize size).performAll uses).Exact ∧
      ((ofSize size).performAll uses).arena.capacity = roundUp (max size reservePage) reservePage :=
  ⟨exact_of_kept (kept_performAll (kept_ofSize size) uses), capacity_performAll _ uses⟩

/-- Ranges given back in any order become one. -/
example : ((ofSize 4096).performAll [.allocate (.replicate 17 0x90), .allocate [0xc3], .allocate [],
    .drop ⟨0, 32⟩, .drop ⟨48, 16⟩, .drop ⟨32, 16⟩]).arena.free = [⟨0, 4096⟩] := by
  decide

end Tenancy

end Arena

end Dynarec.Code
