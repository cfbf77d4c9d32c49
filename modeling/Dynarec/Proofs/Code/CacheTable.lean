import Dynarec.Proofs.Code.CacheEntries
import Dynarec.Proofs.Code.TableMap

/-!
# The cache and the address table

The table publishes the blocks of the cache and nothing else. Each change of the cache is one change
of the table, or one for each block that goes; what it does to the map that the table stands for is
what it does to the look-up in the cache.
-/

namespace Dynarec.Code

open List Compiled

namespace Shard

variable {s : Shard} {a b : UInt64} {x : Compiled}

def Ascending (s : Shard) : Prop := s.Pairwise fun e e' => e.1 < e'.1

theorem lookup_insert (s : Shard) (a b : UInt64) (x : Compiled) :
    (s.insert a x).lookup b = if b = a then some x else s.lookup b := by
  induction s with
  | nil => rw [insert, lookup_cons_eq_ite]
  | cons e rest ih =>
    rw [insert]
    split
    next => rw [lookup_cons_eq_ite]
    next =>
      split
      next heq =>
        subst heq
        rw [lookup_cons_eq_ite, lookup_cons_eq_ite]
        split <;> rfl
      next hne =>
        rw [lookup_cons_eq_ite, lookup_cons_eq_ite, ih]
        split
        next heq => rw [if_neg (fun h : b = a => hne (h.symm.trans heq))]
        next => rfl

theorem Ascending.insert (h : s.Ascending) (a : UInt64) (x : Compiled) :
    (s.insert a x).Ascending := by
  induction s with
  | nil => exact pairwise_singleton _ _
  | cons e rest ih =>
    obtain ⟨hfirst, hrest⟩ := pairwise_cons.mp h
    rw [Shard.insert]
    split
    next hlt =>
      refine pairwise_cons.mpr ⟨fun e' he' => ?_, h⟩
      rcases mem_cons.mp he' with rfl | he'
      · exact hlt
      · exact UInt64.lt_trans hlt (hfirst e' he')
    next hle =>
      split
      next heq =>
        subst heq
        exact pairwise_cons.mpr ⟨hfirst, hrest⟩
      next hne =>
        refine pairwise_cons.mpr ⟨fun e' he' => ?_, ih hrest⟩
        rcases Shard.mem_insert he' with rfl | he'
        · exact UInt64.lt_of_le_of_ne (UInt64.not_lt.mp hle) (Ne.symm hne)
        · exact hfirst e' he'

/-- An address has the block of its entry. -/
theorem Ascending.lookup_eq_some_iff (h : s.Ascending) : s.lookup a = some x ↔ (a, x) ∈ s := by
  refine ⟨mem_of_lookup, lookup_of_mem ?_⟩
  exact pairwise_map.mpr (h.imp UInt64.ne_of_lt)

end Shard

/-- Resets take the addresses out of the map. -/
theorem AddressTable.foldl_reset {α : Type} (fill : UInt64) (map : UInt64 → Option UInt64)
    (l : List α) (address : α → UInt64) (a : UInt64) :
    (l.map fun e => Change.reset (address e)).foldl (Change.onMap fill) map a =
      if a ∈ l.map address then none else map a := by
  induction l generalizing map with
  | nil => rfl
  | cons e rest ih =>
    rw [map_cons, foldl_cons, ih, Change.onMap]
    by_cases he : a = address e <;> by_cases hrest : a ∈ rest.map address <;> simp [he]

namespace Cache

variable {c : Cache} {a b : UInt64} {x : Compiled}

structure Filed (c : Cache) : Prop where
  ascending : ∀ i : Fin shardCount, (c.shards[i] : Shard).Ascending
  index : ∀ i : Fin shardCount, ∀ e ∈ (c.shards[i] : Shard), shardIndex e.1 = i

theorem filed_ofTable (table : AddressTable) : (ofTable table).Filed where
  ascending i := by simp [ofTable, Shard.Ascending]
  index i e he := by simp [ofTable] at he

theorem Filed.get?_eq_some_iff (h : c.Filed) : c.get? a = some x ↔ (a, x) ∈ c.entries := by
  rw [get?, shard, (h.ascending _).lookup_eq_some_iff, mem_entries]
  constructor
  · exact fun hmem => ⟨_, Vector.mem_toList_iff.mpr (Vector.getElem_mem _), hmem⟩
  · rintro ⟨s, hs, hmem⟩
    obtain ⟨i, hi, rfl⟩ := Vector.mem_iff_getElem.mp (Vector.mem_toList_iff.mp hs)
    rwa [h.index ⟨i, hi⟩ _ hmem]

/-! ### One change -/

theorem shards_put (c : Cache) (a : UInt64) (x : Compiled) (i : Fin shardCount) :
    ((c.put a x).shards[i] : Shard) =
      if shardIndex a = i then Shard.insert a x c.shards[i] else c.shards[i] := by
  rw [put]
  split
  next heq =>
    subst heq
    simp only [Fin.getElem_fin, Vector.getElem_set_self]
  next hne =>
    have hval : (shardIndex a).val ≠ i.val := fun h => hne (Fin.ext h)
    simp only [Fin.getElem_fin, Vector.getElem_set_ne _ _ hval]

theorem get?_put (c : Cache) (a b : UInt64) (x : Compiled) :
    (c.put a x).get? b = if b = a then some x else c.get? b := by
  rw [get?, get?, shard, shard, shards_put]
  split
  · rw [Shard.lookup_insert]
  next hindex => rw [if_neg (fun h : b = a => hindex (h ▸ rfl))]

theorem Filed.put (h : c.Filed) (a : UInt64) (x : Compiled) : (c.put a x).Filed := by
  constructor
  · intro i
    rw [shards_put]
    split
    · exact (h.ascending i).insert a x
    · exact h.ascending i
  · intro i e he
    rw [shards_put] at he
    split at he
    next heq =>
      rcases Shard.mem_insert he with rfl | he
      · exact heq
      · exact h.index i e he
    next => exact h.index i e he

theorem shards_removeRange (c : Cache) (address size : UInt64) (i : Fin shardCount) :
    ((c.removeRange address size).2.shards[i] : Shard) =
      filter (fun e => !c.hit address size e) c.shards[i] := by
  simp [removeRange]

theorem Filed.removeRange (h : c.Filed) (address size : UInt64) :
    (c.removeRange address size).2.Filed := by
  constructor
  · intro i
    rw [shards_removeRange]
    exact (h.ascending i).filter _
  · intro i e he
    rw [shards_removeRange] at he
    exact h.index i e (mem_filter.mp he).1

/-- Removal by range takes away the blocks that are hit. -/
theorem Filed.get?_removeRange (h : c.Filed) (address size : UInt64) :
    (c.removeRange address size).2.get? a =
      (c.get? a).filter fun x => !c.hit address size (a, x) := by
  apply Option.ext
  intro x
  rw [(h.removeRange address size).get?_eq_some_iff, entries_removeRange, mem_filter,
    Option.filter_eq_some_iff, h.get?_eq_some_iff]

theorem get?_clear (c : Cache) (a : UInt64) : c.clear.2.get? a = none := by
  simp [get?, shard, clear]

theorem filed_clear (c : Cache) : c.clear.2.Filed where
  ascending i := by simp [clear, Shard.Ascending]
  index i e he := by simp [clear] at he

/-! ### Agreement -/

structure Agrees (fill : UInt64) (c : Cache) : Prop where
  filed : c.Filed
  fill : c.table.fill = fill
  published : c.table.Represents fun a => (c.get? a).map host

namespace Agrees

variable {fill : UInt64}

theorem ofTable (mode : Guest.Mode) (fill : UInt64) :
    (ofTable (.ofMode mode fill)).Agrees fill where
  filed := filed_ofTable _
  fill := rfl
  published := by
    have hnone : (fun a => ((Cache.ofTable (.ofMode mode fill)).get? a).map host) =
        fun _ => none := by
      simp [get?, shard, Cache.ofTable]
    rw [hnone]
    exact AddressTable.Represents.ofMode mode fill

section

variable (h : c.Agrees fill)

include h

theorem put (a : UInt64) (hx : x.host ≠ fill) : (c.put a x).Agrees fill where
  filed := h.filed.put a x
  fill := (h.published.sound.later_apply (.publish a x.host)).fill.trans h.fill
  published := by
    have hmap : (fun b => ((c.put a x).get? b).map host) =
        (AddressTable.Change.publish a x.host).onMap c.table.fill
          fun b => (c.get? b).map host := by
      funext b
      rw [get?_put, AddressTable.Change.onMap, h.fill]
      split <;> rfl
    rw [hmap]
    exact h.published.apply (.publish a x.host)

omit h in
/-- The addresses of the blocks that are hit are reset one after the other. -/
theorem table_removeRange (c : Cache) (address size : UInt64) :
    (c.removeRange address size).2.table =
      c.table.applyAll ((c.entries.filter (c.hit address size)).map fun e => .reset e.1) := by
  rw [AddressTable.applyAll, foldl_map]
  rfl

theorem removeRange (address size : UInt64) : (c.removeRange address size).2.Agrees fill where
  filed := h.filed.removeRange address size
  fill := by
    rw [table_removeRange]
    exact (h.published.sound.later_applyAll _).fill.trans h.fill
  published := by
    have hmap : (fun a => ((c.removeRange address size).2.get? a).map host) =
        ((c.entries.filter (c.hit address size)).map fun e => .reset e.1).foldl
          (AddressTable.Change.onMap c.table.fill) fun a => (c.get? a).map host := by
      funext a
      rw [h.filed.get?_removeRange, AddressTable.foldl_reset]
      split
      next hmem =>
        obtain ⟨⟨b, x⟩, he, rfl⟩ := mem_map.mp hmem
        obtain ⟨he, hhit⟩ := mem_filter.mp he
        rw [h.filed.get?_eq_some_iff.mpr he]
        simp [hhit]
      next hmem =>
        cases hget : c.get? a with
        | none => rfl
        | some x =>
          have hhit : c.hit address size (a, x) = false := by
            by_contra hhit
            refine hmem (mem_map.mpr ⟨(a, x), mem_filter.mpr ⟨?_, ?_⟩, rfl⟩)
            · exact h.filed.get?_eq_some_iff.mp hget
            · simpa using hhit
          simp [hhit]
    rw [table_removeRange, hmap]
    exact h.published.applyAll _

theorem clear : c.clear.2.Agrees fill where
  filed := filed_clear c
  fill := h.fill
  published := by
    simp only [get?_clear]
    exact h.published.apply .clear

/-- A change of the table that publishes nothing. -/
theorem withTable (change : AddressTable.Change)
    (hmap : ∀ map, change.onMap c.table.fill map = map) :
    { c with table := c.table.apply change }.Agrees fill where
  filed := ⟨h.filed.ascending, h.filed.index⟩
  fill := (h.published.sound.later_apply change).fill.trans h.fill
  published := by
    have happly := h.published.apply change
    rw [hmap] at happly
    exact happly

/-- What the table holds for an address is where the block of the cache stands. -/
theorem lookup_eq (a : UInt64) :
    c.table.lookup a =
      if c.table.isValid a = true then (c.get? a).map host else none := by
  split
  next hvalid => exact h.published.lookup_eq hvalid
  next hvalid => exact AddressTable.lookup_of_not_valid (by simpa using hvalid)

end

end Agrees

/-! ### All changes -/

inductive Change where
  | install (block : Compiled) (epoch expected : UInt64) (force : Bool)
  | replace (current replacement : Compiled)
  | removeRange (address size : UInt64)
  | clear
  | prepare (address size : UInt64)
  | ensure (pc : UInt64)

def apply (c : Cache) : Change → Cache
  | .install block epoch expected force => (c.install block epoch expected force).2
  | .replace current replacement => (c.replace current replacement).2
  | .removeRange address size => (c.removeRange address size).2
  | .clear => c.clear.2
  | .prepare address size => { c with table := (c.table.prepare address size).2 }
  | .ensure pc => { c with table := (c.table.ensure pc).2 }

def applyAll (c : Cache) (changes : List Change) : Cache := changes.foldl apply c

/-- Host code never stands where the fill stands, and a block is replaced by one of the same guest
address. -/
def Change.Proper (fill : UInt64) : Change → Prop
  | install block _ _ _ => block.host ≠ fill
  | replace current replacement =>
    replacement.guestAddress = current.guestAddress ∧ replacement.host ≠ fill
  | removeRange _ _ | clear | prepare _ _ | ensure _ => True

def Change.put? : Change → Option (UInt64 × Compiled)
  | install block _ _ _ => some (block.guestAddress, block)
  | replace current replacement => some (current.guestAddress, replacement)
  | removeRange _ _ | clear | prepare _ _ | ensure _ => none

/-- All that a change can do. -/
theorem apply_cases (c : Cache) (change : Change) :
    c.apply change = c ∨ (∃ a x, change.put? = some (a, x) ∧ c.apply change = c.put a x) ∨
    (∃ address size, c.apply change = (c.removeRange address size).2) ∨
    c.apply change = c.clear.2 ∨
    ∃ tableChange : AddressTable.Change, (∀ fill map, tableChange.onMap fill map = map) ∧
      c.apply change = { c with table := c.table.apply tableChange } := by
  cases change with
  | install block epoch expected force =>
    rw [apply, install]
    split
    · exact .inl rfl
    · split
      · exact .inl rfl
      · exact .inr (.inl ⟨_, _, rfl, rfl⟩)
  | replace current replacement =>
    rw [apply, replace]
    split
    · split
      · exact .inr (.inl ⟨_, _, rfl, rfl⟩)
      · exact .inl rfl
    · exact .inl rfl
  | removeRange address size => exact .inr (.inr (.inl ⟨address, size, rfl⟩))
  | clear => exact .inr (.inr (.inr (.inl rfl)))
  | prepare address size =>
    exact .inr (.inr (.inr (.inr ⟨.prepare address size, fun _ _ => rfl, rfl⟩)))
  | ensure pc => exact .inr (.inr (.inr (.inr ⟨.ensure pc, fun _ _ => rfl, rfl⟩)))

theorem Agrees.apply {fill : UInt64} (h : c.Agrees fill) {change : Change}
    (hproper : change.Proper fill) : (c.apply change).Agrees fill := by
  rcases apply_cases c change with heq | ⟨a, x, hput, heq⟩ | ⟨address, size, heq⟩ | heq |
    ⟨tableChange, hmap, heq⟩ <;> rw [heq]
  · exact h
  · cases change <;> cases hput
    · exact h.put _ hproper
    · exact h.put _ hproper.2
  · exact h.removeRange address size
  · exact h.clear
  · exact h.withTable tableChange (hmap _)

theorem Agrees.applyAll {fill : UInt64} (h : c.Agrees fill) {changes : List Change}
    (hproper : ∀ change ∈ changes, change.Proper fill) : (c.applyAll changes).Agrees fill :=
  foldlRecOn changes Cache.apply h fun _ hc change hmem => hc.apply (hproper change hmem)

/-- After any changes, the table has host code for an address that it has a place for if and only if
the cache has a block there, and then it is the code of that block. An address without a place in
the table has its block in the cache only. -/
theorem table_publishes_cache (mode : Guest.Mode) (fill : UInt64) (changes : List Change)
    (hproper : ∀ change ∈ changes, change.Proper fill) (a : UInt64) :
    let c := (ofTable (.ofMode mode fill)).applyAll changes
    (c.table.isValid a = true → ∀ host, c.table.lookup a = some host ↔
      ∃ block, c.get? a = some block ∧ block.host = host) ∧
    (c.table.isValid a = false → c.table.lookup a = none) ∧
    ∀ block epoch expected force,
      (c.install block epoch expected force).1 = .installed block → block.guestAddress = a →
        (c.install block epoch expected force).2.get? a = some block := by
  intro c
  have hagrees : c.Agrees fill := (Agrees.ofTable mode fill).applyAll hproper
  refine ⟨fun hvalid host => ?_, AddressTable.lookup_of_not_valid,
    fun block epoch expected force hdone haddress => ?_⟩
  · rw [hagrees.lookup_eq, if_pos hvalid, Option.map_eq_some_iff]
  · subst haddress
    rw [install] at hdone ⊢
    split at hdone
    · cases hdone
    · split at hdone
      · cases hdone
      next hstale =>
        rw [if_neg hstale, get?_put, if_pos rfl]

/-- A block that was replaced after its neighbour was removed, and one at an unaligned address. -/
theorem table_publishes_cache_replaced :
    let old : Compiled := ⟨0, 0x1000, 8, .fast, ⟨48, 16⟩, default⟩
    let better : Compiled := ⟨1, 0x1000, 8, .optimized, ⟨64, 16⟩, default⟩
    let next : Compiled := ⟨2, 0x1008, 8, .fast, ⟨80, 16⟩, default⟩
    let odd : Compiled := ⟨3, 0x2002, 8, .fast, ⟨96, 16⟩, default⟩
    let changes := [.install old 0 0 false, .install next 0 0 false, .removeRange 0x1008 4,
      .replace old better, .install odd 0 1 true]
    let c := (ofTable (.ofMode .a64 0x7f0000000020)).applyAll changes
    (∀ change ∈ changes, change.Proper 0x7f0000000020) ∧
      c.table.lookup 0x1000 = some 0x7f0000000040 ∧
      c.table.lookup 0x2002 = none ∧ (c.get? 0x2002).map host = some 0x7f0000000060 := by
  intro old better next odd changes c
  have hproper : ∀ change ∈ changes, change.Proper 0x7f0000000020 := by
    simp only [changes, forall_mem_cons, Change.Proper]
    refine ⟨by decide, by decide, trivial, by decide, by decide, nofun⟩
  have hvalid : c.table.isValid 0x1000 = true := by decide +kernel
  have hinvalid : c.table.isValid 0x2002 = false := by decide +kernel
  have hget : (c.get? 0x1000).map host = some 0x7f0000000040 := by decide +kernel
  have hodd : (c.get? 0x2002).map host = some 0x7f0000000060 := by decide +kernel
  refine ⟨hproper, ?_, ?_, hodd⟩
  · exact ((table_publishes_cache .a64 _ changes hproper 0x1000).1 hvalid _).mpr
      (Option.map_eq_some_iff.mp hget)
  · exact (table_publishes_cache .a64 _ changes hproper 0x2002).2.1 hinvalid

end Cache

end Dynarec.Code
