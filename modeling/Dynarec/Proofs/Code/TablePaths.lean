import Dynarec.Code.AddressTable
import Dynarec.Proofs.Lookup
import Mathlib.Algebra.Group.Nat.Defs
import Mathlib.Order.Nat
import Mathlib.Tactic.Common

/-!
# Paths in the address table

The levels in use form a tree: each is referred to from one slot only, and the slots that refer to
none lead into the chain of fill levels. So the leaf slot of an address, once it exists, is the slot
of no other address, and it stays where it is whatever else is done to the table.
-/

namespace Dynarec.Code

namespace Level

/-- Each level takes the bits right below those of the level before it. -/
def Adjoining : List Level → Prop
  | l :: l' :: rest => l.shift = l'.shift + l'.bits ∧ Adjoining (l' :: rest)
  | _ => True

/-- Addresses that agree above the levels and in every level agree down to the last one. -/
theorem shiftRight_eq {pc pc' : UInt64} {levels : List Level} (hadjoining : Adjoining levels)
    {top leaf : Level} (htop : levels.head? = some top) (hleaf : levels.getLast? = some leaf)
    (habove : pc.toNat / 2 ^ (top.shift + top.bits) = pc'.toNat / 2 ^ (top.shift + top.bits))
    (hindex : ∀ l ∈ levels, l.index pc = l.index pc') :
    pc.toNat / 2 ^ leaf.shift = pc'.toNat / 2 ^ leaf.shift := by
  induction levels generalizing top with
  | nil => cases htop
  | cons l rest ih =>
    obtain rfl : l = top := by simpa using htop
    have hhere : pc.toNat / 2 ^ l.shift = pc'.toNat / 2 ^ l.shift := by
      have hmod := hindex l (.head _)
      simp only [index, entries, Nat.shiftRight_eq_div_pow, Nat.one_shiftLeft] at hmod
      rw [Nat.pow_add, ← Nat.div_div_eq_div_mul, ← Nat.div_div_eq_div_mul] at habove
      rw [← Nat.div_add_mod (pc.toNat / 2 ^ l.shift) (2 ^ l.bits), habove, hmod, Nat.div_add_mod]
    cases rest with
    | nil =>
      obtain rfl : l = leaf := by simpa using hleaf
      exact hhere
    | cons l' rest =>
      obtain ⟨hshift, hrest⟩ := hadjoining
      refine ih hrest rfl (by simpa using hleaf) ?_ fun k hk => hindex k (.tail _ hk)
      rwa [← hshift]

end Level

namespace Node

theorem slot_setSlot (n : Node) (i j : Nat) (s : Slot) :
    (n.setSlot i s).slot j = if j = i then s else n.slot j := by
  rw [slot, setSlot, lookup_replace]
  split <;> rfl

@[simp] theorem depth_setSlot (n : Node) (i : Nat) (s : Slot) : (n.setSlot i s).depth = n.depth :=
  rfl

@[simp] theorem rest_setSlot (n : Node) (i : Nat) (s : Slot) : (n.setSlot i s).rest = n.rest := rfl

end Node

namespace AddressTable

variable {t t' t'' : AddressTable} {pc pc' : UInt64} {id d node : Nat} {mode : Guest.Mode}
  {fill : UInt64} {l l' : Level} {rest : List Level} {s : LeafSlot}

@[simp] theorem length_levels (t : AddressTable) : t.levels.length = t.depth := rfl

theorem two_le_depth (t : AddressTable) : 2 ≤ t.depth := by
  cases hmode : t.mode <;> simp [depth, depthOf, hmode, levelsOf]

/-! ### Nodes after a change -/

theorem node_of_size_le (h : t.nodes.size ≤ id) : t.node id = ⟨0, .host t.fill, []⟩ := by
  simp [node, h]

theorem node_setSlot (t : AddressTable) {n : Nat} (hn : n < t.nodes.size) (i : Nat) (s : Slot)
    (id : Nat) :
    (t.setSlot n i s).node id = if id = n then (t.node n).setSlot i s else t.node id := by
  unfold node setSlot
  simp only [Array.getD_eq_getD_getElem?, Array.getElem?_modify]
  by_cases h : n = id
  · subst h
    simp [hn]
  · simp [h, Ne.symm h]

@[simp] theorem size_setSlot (t : AddressTable) (n i : Nat) (s : Slot) :
    (t.setSlot n i s).nodes.size = t.nodes.size := by
  simp [setSlot]

theorem lt_size_of_slot {i next : Nat} (h : (t.node id).slot i = .node next) :
    id < t.nodes.size := by
  by_contra hid
  rw [node_of_size_le (not_lt.mp hid)] at h
  cases h

/-! ### Shape -/

/-- The shape of every table: fill levels stand untouched in front of the levels in use, which form
a tree below the root. -/
structure Sound (t : AddressTable) : Prop where
  size_le : t.depth ≤ t.nodes.size
  root : (t.node 0).depth = 0
  fill : ∀ d, 0 < d → d < t.depth → t.node d = ⟨d, restSlot t.mode t.fill d, []⟩
  below : ∀ id < t.nodes.size, (t.node id).depth < t.depth
  rest : ∀ id < t.nodes.size, (t.node id).rest = restSlot t.mode t.fill (t.node id).depth
  inner : ∀ id < t.nodes.size, (t.node id).depth + 1 < t.depth → ∀ i, ∃ next,
    (t.node id).slot i = .node next ∧ next < t.nodes.size ∧
      (t.node next).depth = (t.node id).depth + 1
  leaf : ∀ id < t.nodes.size, (t.node id).depth + 1 = t.depth → ∀ i, ∃ host,
    (t.node id).slot i = .host host
  parent : ∀ {a i b j next}, t.depth ≤ next → (t.node a).slot i = .node next →
    (t.node b).slot j = .node next → a = b ∧ i = j

theorem restSlot_inner (h : d + 1 < depthOf mode) : restSlot mode fill d = .node (d + 1) := if_pos h

theorem restSlot_leaf (h : d + 1 = depthOf mode) :
    restSlot mode fill d = .host fill := if_neg (by omega)

theorem eq_of_restSlot {next : Nat} (h : restSlot mode fill d = .node next) :
    next = d + 1 ∧ d + 1 < depthOf mode := by
  unfold restSlot at h
  split at h
  next hinner =>
    cases h
    exact ⟨rfl, hinner⟩
  · cases h

theorem size_ofMode (mode : Guest.Mode) (fill : UInt64) :
    (ofMode mode fill).nodes.size = depthOf mode := by
  simp [ofMode]

theorem node_ofMode (mode : Guest.Mode) (fill : UInt64) (h : d < depthOf mode) :
    (ofMode mode fill).node d = ⟨d, restSlot mode fill d, []⟩ := by
  simp [node, ofMode, h]

theorem sound_ofMode (mode : Guest.Mode) (fill : UInt64) : (ofMode mode fill).Sound where
  size_le := by simp [depth, ofMode]
  root := by
    rw [node_ofMode mode fill (Nat.lt_of_lt_of_le (by decide) (two_le_depth (ofMode mode fill)))]
  fill d _ hd := node_ofMode mode fill hd
  below id hid := by
    rw [size_ofMode] at hid
    rw [node_ofMode mode fill hid]
    exact hid
  rest id hid := by
    rw [size_ofMode] at hid
    rw [node_ofMode mode fill hid]
    rfl
  inner id hid hinner i := by
    rw [size_ofMode] at hid
    rw [node_ofMode mode fill hid] at hinner ⊢
    refine ⟨id + 1, restSlot_inner hinner, ?_, ?_⟩
    · rw [size_ofMode]
      exact hinner
    · rw [node_ofMode mode fill hinner]
  leaf id hid hleaf i := by
    rw [size_ofMode] at hid
    rw [node_ofMode mode fill hid] at hleaf ⊢
    exact ⟨fill, restSlot_leaf hleaf⟩
  parent {a i b j next} hnext ha _ := by
    have hlt := lt_size_of_slot ha
    rw [size_ofMode] at hlt
    rw [node_ofMode mode fill hlt] at ha
    obtain ⟨rfl, hinner⟩ := eq_of_restSlot ha
    exact absurd hinner (not_lt_of_ge hnext)

namespace Sound

/-- An inner slot refers to a level of the next depth. -/
theorem next (h : t.Sound) {i next : Nat} (hslot : (t.node id).slot i = .node next) :
    next < t.nodes.size ∧ (t.node next).depth = (t.node id).depth + 1 := by
  have hid := lt_size_of_slot hslot
  have hbelow := h.below id hid
  by_cases hinner : (t.node id).depth + 1 < t.depth
  · obtain ⟨next', hslot', hnext⟩ := h.inner id hid hinner i
    rw [hslot] at hslot'
    cases hslot'
    exact hnext
  · obtain ⟨host, hhost⟩ := h.leaf id hid (by omega) i
    rw [hslot] at hhost
    cases hhost

/-- The only level that is not in use and is referred to from depth `d` is the fill level there. -/
theorem eq_fill (h : t.Sound) {i next : Nat} (hslot : (t.node id).slot i = .node next)
    (hnext : next < t.depth) : next = (t.node id).depth + 1 ∧ (t.node id).depth + 1 < t.depth := by
  obtain ⟨hlt, hdepth⟩ := h.next hslot
  refine ⟨?_, hdepth ▸ h.below next hlt⟩
  rcases Nat.eq_zero_or_pos next with rfl | hpos
  · rw [h.root] at hdepth
    omega
  · rw [h.fill next hpos hnext] at hdepth
    exact hdepth

end Sound

/-! ### Finding -/

theorem find?_eq_some_iff :
    t.find? pc = some s ↔ t.isValid pc = true ∧ t.findFrom pc t.levels 0 = some s := by
  simp [find?]

theorem findFrom_cons {next : Nat} (h : (t.node node).slot (l.index pc) = .node next) :
    t.findFrom pc (l :: l' :: rest) node =
      if next < t.depth then none else t.findFrom pc (l' :: rest) next := by
  rw [findFrom, h]
  simp

theorem findFrom_cons_eq_some {next : Nat} (h : (t.node node).slot (l.index pc) = .node next) :
    t.findFrom pc (l :: l' :: rest) node = some s ↔
      t.depth ≤ next ∧ t.findFrom pc (l' :: rest) next = some s := by
  simp [findFrom_cons h]

theorem walkFrom_cons {next : Nat} (h : (t.node node).slot (l.index pc) = .node next) :
    t.walkFrom pc (l :: rest) node = t.walkFrom pc rest next := by
  rw [walkFrom, h]

/-- A level that the remaining levels of a walk lead through. -/
structure At (t : AddressTable) (levels : List Level) (node : Nat) : Prop where
  lt : node < t.nodes.size
  depth : (t.node node).depth + levels.length = t.depth

/-- A slot at the end of a path through levels in use. -/
structure IsLeaf (t : AddressTable) (s : LeafSlot) : Prop where
  own : t.depth ≤ s.node
  lt : s.node < t.nodes.size
  depth : (t.node s.node).depth + 1 = t.depth

namespace Sound

variable {l : Level} {node : Nat} {levels : List Level}

theorem at_root (h : t.Sound) : ∃ l levels, t.levels = l :: levels ∧ t.At (l :: levels) 0 := by
  have hdepth := t.two_le_depth
  obtain ⟨l, levels, hlevels⟩ :=
    List.exists_cons_of_length_pos (show 0 < t.levels.length by rw [length_levels]; omega)
  refine ⟨l, levels, hlevels, Nat.lt_of_lt_of_le (by omega) h.size_le, ?_⟩
  rw [h.root, Nat.zero_add, ← hlevels, length_levels]

/-- The slot that a walk follows, with levels below it. -/
theorem step (h : t.Sound) (hat : t.At (l :: l' :: rest) node) (pc : UInt64) : ∃ next,
      (t.node node).slot (l.index pc) = .node next ∧ t.At (l' :: rest) next := by
  have hdepth := hat.depth
  simp only [List.length_cons] at hdepth
  obtain ⟨next, hslot, hlt, hnext⟩ := h.inner node hat.lt (by omega) (l.index pc)
  refine ⟨next, hslot, hlt, ?_⟩
  rw [List.length_cons]
  omega

theorem walkFrom_fill (h : t.Sound) (hpos : 0 < d) (hlt : d < t.depth)
    (hdepth : d + levels.length = t.depth) :
    t.walkFrom pc levels d = .host t.fill := by
  induction levels generalizing d with
  | nil => simp at hdepth; omega
  | cons l rest ih =>
    have hslot : (t.node d).slot (l.index pc) = restSlot t.mode t.fill d := by
      rw [h.fill d hpos hlt]
      rfl
    rw [walkFrom, hslot]
    rw [List.length_cons] at hdepth
    by_cases hinner : d + 1 < t.depth
    · rw [restSlot_inner hinner]
      exact ih (Nat.succ_pos d) hinner (by omega)
    · rw [restSlot_leaf (Nat.le_antisymm hlt (not_lt.mp hinner))]

/-- What is found is a leaf slot, and the walk ends there; where nothing is found, it ends in the
fill. -/
theorem findFrom_spec (h : t.Sound) (hat : t.At (l :: levels) node) :
    (∀ s, t.findFrom pc (l :: levels) node = some s →
      t.walkFrom pc (l :: levels) node = t.slot s ∧ s.node < t.nodes.size ∧
        (t.node s.node).depth + 1 = t.depth ∧ (t.depth ≤ s.node ∨ s.node = node)) ∧
      (t.findFrom pc (l :: levels) node = none →
        t.walkFrom pc (l :: levels) node = .host t.fill) := by
  induction levels generalizing l node with
  | nil =>
    refine ⟨fun s hs => ?_, nofun⟩
    obtain rfl : (⟨node, l.index pc⟩) = s := by simpa [findFrom] using hs
    have hdepth : (t.node node).depth + 1 = t.depth := hat.depth
    obtain ⟨host, hhost⟩ := h.leaf node hat.lt hdepth (l.index pc)
    refine ⟨?_, hat.lt, hdepth, .inr rfl⟩
    rw [walkFrom, slot, hhost]
  | cons l' rest ih =>
    obtain ⟨next, hslot, hnext⟩ := h.step hat pc
    rw [findFrom_cons hslot, walkFrom_cons hslot]
    split
    next hfill =>
      refine ⟨nofun, fun _ => ?_⟩
      obtain ⟨heq, hlt⟩ := h.eq_fill hslot hfill
      have hdepth := hnext.depth
      rw [(h.next hslot).2] at hdepth
      exact h.walkFrom_fill (by omega) hfill (by omega)
    next hown =>
      refine ⟨fun s hs => ?_, (ih hnext).2⟩
      obtain ⟨hwalk, hlt, hdepth, hwhere⟩ := (ih hnext).1 s hs
      exact ⟨hwalk, hlt, hdepth, .inl (hwhere.elim id fun heq => heq ▸ not_lt.mp hown)⟩

/-- Paths that end in one slot come from one level and take the same turns. -/
theorem findFrom_inj (h : t.Sound) {node' : Nat} (hat : t.At (l :: levels) node)
    (hat' : t.At (l :: levels) node') (hs : t.findFrom pc (l :: levels) node = some s)
    (hs' : t.findFrom pc' (l :: levels) node' = some s) :
    node = node' ∧ ∀ k ∈ l :: levels, k.index pc = k.index pc' := by
  induction levels generalizing l node node' with
  | nil =>
    have heq : (⟨node, l.index pc⟩ : LeafSlot) = ⟨node', l.index pc'⟩ := by
      exact Option.some.inj (hs.trans hs'.symm)
    obtain ⟨hnode, hindex⟩ := LeafSlot.mk.inj heq
    exact ⟨hnode, fun k hk => List.mem_singleton.mp hk ▸ hindex⟩
  | cons l' rest ih =>
    obtain ⟨next, hslot, hnext⟩ := h.step hat pc
    obtain ⟨next', hslot', hnext'⟩ := h.step hat' pc'
    obtain ⟨hown, hs⟩ := (findFrom_cons_eq_some hslot).mp hs
    obtain ⟨-, hs'⟩ := (findFrom_cons_eq_some hslot').mp hs'
    obtain ⟨rfl, hindex⟩ := ih hnext hnext' hs hs'
    obtain ⟨hnode, hfirst⟩ := h.parent hown hslot hslot'
    exact ⟨hnode, List.forall_mem_cons.mpr ⟨hfirst, hindex⟩⟩

end Sound

/-! ### Valid addresses -/

theorem adjoining_levels (t : AddressTable) : Level.Adjoining t.levels := by
  cases hmode : t.mode <;> simp [levels, hmode, levelsOf, Level.Adjoining]

/-- A number with none of the bits of a mask that has all bits below 2 and from `k` on. -/
theorem and_mask_eq_zero_iff {x mask k : Nat} (hx : x < 2 ^ 64)
    (hmask : ∀ i < 64, mask.testBit i = decide (i < 2 ∨ k ≤ i)) :
    x &&& mask = 0 ↔ x % 4 = 0 ∧ x < 2 ^ k := by
  have hlow : x % 4 = 0 ↔ x.testBit 0 = false ∧ x.testBit 1 = false := by
    simp only [Nat.testBit_eq_decide_div_mod_eq]
    simp
    omega
  rw [hlow]
  constructor
  · intro h
    have hbit : ∀ i < 64, i < 2 ∨ k ≤ i → x.testBit i = false := by
      intro i hi hin
      have hand : (x &&& mask).testBit i = false := by rw [h, Nat.zero_testBit]
      rw [Nat.testBit_and, hmask i hi, decide_eq_true hin, Bool.and_true] at hand
      exact hand
    refine ⟨⟨hbit 0 (by decide) (.inl (by decide)), hbit 1 (by decide) (.inl (by decide))⟩, ?_⟩
    refine Nat.lt_pow_two_of_testBit x fun i hi => ?_
    by_cases h64 : i < 64
    · exact hbit i h64 (.inr hi)
    · exact Nat.testBit_lt_two_pow (Nat.lt_of_lt_of_le hx
        (Nat.pow_le_pow_right (by decide) (by omega)))
  · rintro ⟨⟨h0, h1⟩, hlt⟩
    refine Nat.eq_of_testBit_eq fun i => ?_
    rw [Nat.testBit_and, Nat.zero_testBit]
    by_cases hin : i < 2 ∨ k ≤ i
    · have hbit : x.testBit i = false := by
        rcases hin with hin | hin
        · rcases (by omega : i = 0 ∨ i = 1) with rfl | rfl
          · exact h0
          · exact h1
        · exact Nat.testBit_lt_two_pow (Nat.lt_of_lt_of_le hlt
            (Nat.pow_le_pow_right (by decide) hin))
      rw [hbit, Bool.false_and]
    · by_cases h64 : i < 64
      · rw [hmask i h64, decide_eq_false hin, Bool.and_false]
      · rw [Nat.testBit_lt_two_pow (Nat.lt_of_lt_of_le hx
          (Nat.pow_le_pow_right (by decide) (by omega))), Bool.false_and]

/-- The table has a place for the aligned addresses that it covers. -/
theorem isValid_iff (t : AddressTable) (pc : UInt64) :
    t.isValid pc = true ↔ pc.toNat % 4 = 0 ∧ pc.toNat < 2 ^ t.coveredBits := by
  have hmask : ∀ i < 64, t.invalidMask.toNat.testBit i = decide (i < 2 ∨ t.coveredBits ≤ i) := by
    cases hmode : t.mode <;>
      · simp only [invalidMask, coveredBits, levels, hmode]
        decide
  rw [← and_mask_eq_zero_iff pc.toNat_lt hmask, isValid, beq_iff_eq, ← UInt64.toNat_inj]
  simp

/-- Valid addresses that pick the same slot on each level are the same. -/
theorem eq_of_index (hpc : t.isValid pc = true) (hpc' : t.isValid pc' = true)
    (h : ∀ l ∈ t.levels, l.index pc = l.index pc') : pc = pc' := by
  obtain ⟨hmod, hlt⟩ := (isValid_iff t pc).mp hpc
  obtain ⟨hmod', hlt'⟩ := (isValid_iff t pc').mp hpc'
  obtain ⟨top, htop, hcovered⟩ : ∃ top, t.levels.head? = some top ∧
      t.coveredBits = top.shift + top.bits := by
    cases hmode : t.mode <;> simp [coveredBits, levels, hmode, levelsOf]
  obtain ⟨leaf, hleaf, hshift⟩ : ∃ leaf, t.levels.getLast? = some leaf ∧ leaf.shift = 2 := by
    cases hmode : t.mode <;> simp [levels, hmode, levelsOf]
  rw [hcovered] at hlt hlt'
  have hdiv := Level.shiftRight_eq (adjoining_levels t) htop hleaf
    (by rw [Nat.div_eq_of_lt hlt, Nat.div_eq_of_lt hlt']) h
  rw [hshift] at hdiv
  apply UInt64.toNat_inj.mp
  omega

/-! ### Look-up by leaf slots -/

namespace Sound

section

variable (h : t.Sound) (hs : t.find? pc = some s)

include h hs

theorem find?_spec : t.IsLeaf s ∧ t.walkFrom pc t.levels 0 = t.slot s := by
  obtain ⟨-, hfind⟩ := find?_eq_some_iff.mp hs
  obtain ⟨l, levels, hlevels, hat⟩ := h.at_root
  rw [hlevels] at hfind ⊢
  obtain ⟨hwalk, hlt, hdepth, hwhere⟩ := (h.findFrom_spec hat).1 s hfind
  refine ⟨⟨hwhere.elim id fun hroot => ?_, hlt, hdepth⟩, hwalk⟩
  rw [hroot, h.root] at hdepth
  have := t.two_le_depth
  omega

theorem isLeaf_of_find? : t.IsLeaf s := (h.find?_spec hs).1

/-- A leaf slot is the slot of one valid address. -/
theorem find?_inj (hs' : t.find? pc' = some s) : pc = pc' := by
  obtain ⟨hvalid, hfind⟩ := find?_eq_some_iff.mp hs
  obtain ⟨hvalid', hfind'⟩ := find?_eq_some_iff.mp hs'
  refine eq_of_index hvalid hvalid' ?_
  obtain ⟨l, levels, hlevels, hat⟩ := h.at_root
  rw [hlevels] at hfind hfind' ⊢
  exact (h.findFrom_inj hat hat hfind hfind').2

theorem walk_of_find? : t.slot s = .host (t.walk pc) := by
  obtain ⟨hleaf, hwalk⟩ := h.find?_spec hs
  obtain ⟨host, hhost⟩ := h.leaf s.node hleaf.lt hleaf.depth s.index
  rw [slot, hhost] at hwalk ⊢
  rw [walk, hwalk]

end

theorem walk_of_not_find? (h : t.Sound) (hvalid : t.isValid pc = true)
    (hs : t.find? pc = none) : t.walk pc = t.fill := by
  obtain hfind : t.findFrom pc t.levels 0 = none := by simpa [find?, hvalid] using hs
  obtain ⟨l, levels, hlevels, hat⟩ := h.at_root
  rw [hlevels] at hfind
  rw [walk, hlevels, (h.findFrom_spec hat).2 hfind]

/-- Looking up gives what the walk ends in, unless that is the fill. -/
theorem lookup_eq (h : t.Sound) (hvalid : t.isValid pc = true) :
    t.lookup pc = if t.walk pc = t.fill then none else some (t.walk pc) := by
  cases hfind : t.find? pc with
  | some s => rw [lookup, hfind, Option.map_some, h.walk_of_find? hfind]
  | none => rw [lookup, hfind, h.walk_of_not_find? hvalid hfind, if_pos rfl]; rfl

end Sound

theorem lookup_of_not_valid (h : t.isValid pc = false) : t.lookup pc = none := by
  simp [lookup, find?, h]

/-! ### Writing leaf slots -/

/-- Only leaf slots of levels in use hold other host addresses than before. -/
structure Repainted (t t' : AddressTable) : Prop where
  mode : t'.mode = t.mode
  fill : t'.fill = t.fill
  size : t'.nodes.size = t.nodes.size
  fills : ∀ d, 0 < d → d < t.depth → t'.node d = t.node d
  inner : ∀ id < t.nodes.size, (t.node id).depth + 1 < t.depth → t'.node id = t.node id
  leaf : ∀ id < t.nodes.size, (t.node id).depth + 1 = t.depth →
    (t'.node id).depth = (t.node id).depth ∧ (t'.node id).rest = (t.node id).rest ∧
      ∀ i, ∃ host, (t'.node id).slot i = .host host

namespace Repainted

section

variable (h : Repainted t t')

include h

theorem depth_eq : t'.depth = t.depth := by
  rw [depth, depth, h.mode]

theorem levels_eq : t'.levels = t.levels := by
  rw [levels, levels, h.mode]

theorem isValid_eq : t'.isValid pc = t.isValid pc := by
  simp only [isValid, invalidMask, coveredBits, h.levels_eq]

section

variable (ht : t.Sound)

include ht

theorem node_depth (hid : id < t.nodes.size) : (t'.node id).depth = (t.node id).depth := by
  rcases Nat.lt_or_eq_of_le (ht.below id hid) with hinner | hleaf
  · rw [h.inner id hid hinner]
  · exact (h.leaf id hid hleaf).1

/-- References to levels are as before. -/
theorem slot_node_iff {i next : Nat} : (t'.node id).slot
    i = .node next ↔ (t.node id).slot i = .node next := by
  by_cases hid : id < t.nodes.size
  · rcases Nat.lt_or_eq_of_le (ht.below id hid) with hinner | hleaf
    · rw [h.inner id hid hinner]
    · obtain ⟨host, hhost⟩ := (h.leaf id hid hleaf).2.2 i
      obtain ⟨host', hhost'⟩ := ht.leaf id hid hleaf i
      simp [hhost, hhost']
  · rw [node_of_size_le (not_lt.mp hid), node_of_size_le (h.size ▸ not_lt.mp hid)]
    simp [Node.slot]

theorem sound : t'.Sound where
  size_le := by
    rw [h.depth_eq, h.size]
    exact ht.size_le
  root := by
    rw [h.node_depth ht (Nat.lt_of_lt_of_le (by have := t.two_le_depth; omega) ht.size_le)]
    exact ht.root
  fill d hpos hd := by
    rw [h.depth_eq] at hd
    rw [h.fills d hpos hd, ht.fill d hpos hd, h.mode, h.fill]
  below id hid := by
    rw [h.size] at hid
    rw [h.node_depth ht hid, h.depth_eq]
    exact ht.below id hid
  rest id hid := by
    rw [h.size] at hid
    rw [h.node_depth ht hid, h.mode, h.fill, ← ht.rest id hid]
    rcases Nat.lt_or_eq_of_le (ht.below id hid) with hinner | hleaf
    · rw [h.inner id hid hinner]
    · exact (h.leaf id hid hleaf).2.1
  inner id hid hinner i := by
    rw [h.size] at hid
    rw [h.depth_eq, h.node_depth ht hid] at hinner
    obtain ⟨next, hslot, hnext, hdepth⟩ := ht.inner id hid hinner i
    refine ⟨next, (h.slot_node_iff ht).mpr hslot, h.size ▸ hnext, ?_⟩
    rw [h.node_depth ht hid, h.node_depth ht hnext, hdepth]
  leaf id hid hleaf i := by
    rw [h.size] at hid
    rw [h.depth_eq, h.node_depth ht hid] at hleaf
    exact (h.leaf id hid hleaf).2.2 i
  parent hnext ha hb := by
    rw [h.depth_eq] at hnext
    exact ht.parent hnext ((h.slot_node_iff ht).mp ha) ((h.slot_node_iff ht).mp hb)

theorem findFrom_eq {levels : List Level} (hat : t.At (l :: levels) node) :
    t'.findFrom pc (l :: levels) node = t.findFrom pc (l :: levels) node := by
  induction levels generalizing l node with
  | nil => rfl
  | cons l' rest ih =>
    obtain ⟨next, hslot, hnext⟩ := ht.step hat pc
    rw [findFrom_cons hslot, findFrom_cons ((h.slot_node_iff ht).mpr hslot), h.depth_eq, ih hnext]

/-- Every address keeps its leaf slot. -/
theorem find?_eq : t'.find? pc = t.find? pc := by
  obtain ⟨l, levels, hlevels, hat⟩ := ht.at_root
  rw [find?, find?, h.isValid_eq, h.levels_eq, hlevels, h.findFrom_eq ht hat]

end

end

end Repainted

theorem Sound.repainted_setSlot (h : t.Sound) (hs : t.IsLeaf s) (host : UInt64) :
    Repainted t (t.setSlot s.node s.index (.host host)) where
  mode := rfl
  fill := rfl
  size := size_setSlot t _ _ _
  fills d _ hd := by
    rw [node_setSlot t hs.lt, if_neg (Nat.ne_of_lt (Nat.lt_of_lt_of_le hd hs.own))]
  inner id hid hinner := by
    rw [node_setSlot t hs.lt, if_neg]
    rintro rfl
    exact absurd hs.depth (Nat.ne_of_lt hinner)
  leaf id hid hleaf := by
    rw [node_setSlot t hs.lt]
    split
    next heq =>
      subst heq
      refine ⟨rfl, rfl, fun i => ?_⟩
      rw [Node.slot_setSlot]
      split
      · exact ⟨host, rfl⟩
      · exact h.leaf s.node hs.lt hs.depth i
    next => exact ⟨rfl, rfl, h.leaf id hid hleaf⟩

theorem IsLeaf.slot_setSlot (hs : t.IsLeaf s) (host : UInt64) (s' : LeafSlot) :
    (t.setSlot s.node s.index (.host host)).slot s' =
      if s' = s then .host host else t.slot s' := by
  rw [slot, node_setSlot t hs.lt]
  split
  next heq =>
    rw [Node.slot_setSlot]
    by_cases hindex : s'.index = s.index
    · rw [if_pos hindex, if_pos (by cases s; cases s'; simp_all)]
    · rw [if_neg hindex, if_neg (fun h : s' = s => hindex (h ▸ rfl)), slot, heq]
  next hne => rw [if_neg (fun h : s' = s => hne (h ▸ rfl)), slot]

theorem node_clear (t : AddressTable) (hid : id < t.nodes.size) :
    t.clear.node id =
      if (t.node id).depth + 1 = t.depth then { t.node id with entries := [] } else t.node id := by
  simp [clear, node, hid]

theorem Sound.slot_clear (h : t.Sound) (hid : id < t.nodes.size)
    (hleaf : (t.node id).depth + 1 = t.depth) (i : Nat) :
    (t.clear.node id).slot i = .host t.fill := by
  rw [node_clear t hid, if_pos hleaf]
  change (t.node id).rest = _
  rw [h.rest id hid]
  exact restSlot_leaf hleaf

theorem Sound.repainted_clear (h : t.Sound) : Repainted t t.clear where
  mode := rfl
  fill := rfl
  size := by simp [clear]
  fills d hpos hd := by
    rw [node_clear t (Nat.lt_of_lt_of_le hd h.size_le), h.fill d hpos hd]
    split <;> rfl
  inner id hid hinner := by rw [node_clear t hid, if_neg (Nat.ne_of_lt hinner)]
  leaf id hid hleaf := by
    refine ⟨?_, ?_, fun i => ⟨t.fill, h.slot_clear hid hleaf i⟩⟩ <;>
      rw [node_clear t hid, if_pos hleaf]

/-! ### New levels -/

/-- Slots that led into the fill may lead to new levels, which hold nothing but the fill. -/
structure Grown (t t' : AddressTable) : Prop where
  sound : t'.Sound
  mode : t'.mode = t.mode
  fill : t'.fill = t.fill
  size : t.nodes.size ≤ t'.nodes.size
  kept : ∀ {id i next}, t.depth ≤ next → (t.node id).slot i = .node next →
    (t'.node id).slot i = .node next
  fresh : ∀ {id i next}, t.depth ≤ next → (t'.node id).slot i = .node next →
    (t.node id).slot i = .node next ∨ t.nodes.size ≤ next
  hosts : ∀ {id i host}, id < t.nodes.size →
    ((t'.node id).slot i = .host host ↔ (t.node id).slot i = .host host)
  filled : ∀ {id i host}, t.nodes.size ≤ id → (t'.node id).slot i = .host host → host = t.fill

namespace Grown

variable {l : Level} {levels : List Level} {node : Nat} {s : LeafSlot}

theorem refl (h : t.Sound) : Grown t t where
  sound := h
  mode := rfl
  fill := rfl
  size := le_rfl
  kept _ hslot := hslot
  fresh _ hslot := .inl hslot
  hosts _ := Iff.rfl
  filled hid hslot := by
    rw [node_of_size_le hid] at hslot
    cases hslot
    rfl

section

variable (h : Grown t t')

include h

theorem depth_eq : t'.depth = t.depth := by
  rw [depth, depth, h.mode]

theorem levels_eq : t'.levels = t.levels := by
  rw [levels, levels, h.mode]

theorem isValid_eq : t'.isValid pc = t.isValid pc := by
  simp only [isValid, invalidMask, coveredBits, h.levels_eq]

theorem trans (h' : Grown t' t'') : Grown t t'' where
  sound := h'.sound
  mode := h'.mode.trans h.mode
  fill := h'.fill.trans h.fill
  size := Nat.le_trans h.size h'.size
  kept hnext hslot := h'.kept (h.depth_eq ▸ hnext) (h.kept hnext hslot)
  fresh hnext hslot := by
    rcases h'.fresh (h.depth_eq ▸ hnext) hslot with hslot | hsize
    · exact h.fresh hnext hslot
    · exact .inr (Nat.le_trans h.size hsize)
  hosts hid := (h'.hosts (Nat.lt_of_lt_of_le hid h.size)).trans (h.hosts hid)
  filled {id} _ _ hid hslot := by
    by_cases hold : id < t'.nodes.size
    · exact h.filled hid ((h'.hosts hold).mp hslot)
    · exact (h'.filled (not_lt.mp hold) hslot).trans h.fill

theorem findFrom_eq (ht : t.Sound) (hat : t.At (l :: levels) node)
    (hs : t.findFrom pc (l :: levels) node = some s) :
    t'.findFrom pc (l :: levels) node = some s := by
  induction levels generalizing l node with
  | nil => exact hs
  | cons l' rest ih =>
    obtain ⟨next, hslot, hnext⟩ := ht.step hat pc
    obtain ⟨hown, hs⟩ := (findFrom_cons_eq_some hslot).mp hs
    exact (findFrom_cons_eq_some (h.kept hown hslot)).mpr ⟨h.depth_eq ▸ hown, ih hnext hs⟩

/-- A path was there before, or it ends in a new level. -/
theorem findFrom_cases (hat : t'.At (l :: levels) node)
    (hs : t'.findFrom pc (l :: levels) node = some s) :
    node < t.nodes.size ∧ t.findFrom pc (l :: levels) node = some s ∨ t.nodes.size ≤ s.node := by
  induction levels generalizing l node with
  | nil =>
    obtain rfl : (⟨node, l.index pc⟩) = s := by simpa [findFrom] using hs
    exact (Nat.lt_or_ge node t.nodes.size).imp_left fun hlt => ⟨hlt, rfl⟩
  | cons l' rest ih =>
    obtain ⟨next, hslot, hnext⟩ := h.sound.step hat pc
    rw [findFrom_cons_eq_some hslot, h.depth_eq] at hs
    rcases h.fresh hs.1 hslot with hslot | hsize
    · rw [findFrom_cons_eq_some hslot]
      exact (ih hnext hs.2).imp_left fun hfound => ⟨lt_size_of_slot hslot, hs.1, hfound.2⟩
    · exact .inr ((ih hnext hs.2).resolve_left fun hfound => absurd hfound.1 (by omega))

theorem find?_eq (ht : t.Sound) (hs : t.find? pc = some s) : t'.find? pc = some s := by
  obtain ⟨hvalid, hfind⟩ := find?_eq_some_iff.mp hs
  obtain ⟨l, levels, hlevels, hat⟩ := ht.at_root
  rw [hlevels] at hfind
  rw [find?, h.isValid_eq, if_pos hvalid, h.levels_eq, hlevels, h.findFrom_eq ht hat hfind]

theorem find?_cases (hs : t'.find? pc = some s) : t.find? pc = some s ∨ t.nodes.size ≤ s.node := by
  obtain ⟨hvalid, hfind⟩ := find?_eq_some_iff.mp hs
  obtain ⟨l, levels, hlevels, hat⟩ := h.sound.at_root
  rw [hlevels] at hfind
  rw [h.isValid_eq] at hvalid
  rw [find?, if_pos hvalid, ← h.levels_eq, hlevels]
  exact (h.findFrom_cases hat hfind).imp_left And.right

theorem slot_eq (ht : t.Sound) (hs : t.IsLeaf s) : t'.slot s = t.slot s := by
  obtain ⟨host, hhost⟩ := ht.leaf s.node hs.lt hs.depth s.index
  rw [slot, slot, hhost, (h.hosts hs.lt).mpr hhost]

/-- Every valid address leads where it led before. -/
theorem walk_eq (ht : t.Sound) (hvalid : t.isValid pc = true) : t'.walk pc = t.walk pc := by
  have hvalid' : t'.isValid pc = true := h.isValid_eq.trans hvalid
  cases hfind : t.find? pc with
  | some s =>
    have hwalk := ht.walk_of_find? hfind
    have hwalk' := h.sound.walk_of_find? (h.find?_eq ht hfind)
    rw [h.slot_eq ht (ht.isLeaf_of_find? hfind), hwalk] at hwalk'
    exact (Slot.host.inj hwalk').symm
  | none =>
    rw [ht.walk_of_not_find? hvalid hfind]
    cases hfind' : t'.find? pc with
    | some s =>
      have hnew := (h.find?_cases hfind').resolve_left (by rw [hfind]; nofun)
      exact h.filled hnew (h.sound.walk_of_find? hfind')
    | none => rw [h.sound.walk_of_not_find? hvalid' hfind', h.fill]

end

end Grown

section CopyFill

variable {parent index d : Nat}

@[simp] theorem size_copyFill (t : AddressTable) (parent index d : Nat) :
    (t.copyFill parent index d).2.nodes.size = t.nodes.size + 1 := by
  simp [copyFill]

theorem node_copyFill (hparent : parent < t.nodes.size) (index id : Nat) :
    (t.copyFill parent index d).2.node id =
      if id = parent then (t.node parent).setSlot index (.node t.nodes.size)
      else if id = t.nodes.size then t.node d else t.node id := by
  have hpush : ∀ id, ({ t with nodes := t.nodes.push (t.node d) }).node id =
      if id = t.nodes.size then t.node d else t.node id := by
    intro id
    simp only [node, Array.getD_eq_getD_getElem?, Array.getElem?_push]
    split <;> rfl
  have hbound : parent < (t.nodes.push (t.node d)).size := by
    rw [Array.size_push]
    omega
  rw [copyFill, node_setSlot _ hbound, hpush, hpush, if_neg (Nat.ne_of_lt hparent)]

section

variable (hparent : parent < t.nodes.size) (hfill : t.node d = ⟨d, restSlot t.mode t.fill d, []⟩)

include hparent hfill

/-- The slots of a table after a fill level was copied. -/
theorem slot_copyFill (index id i : Nat) : ((t.copyFill parent index d).2.node id).slot i =
      if id = parent ∧ i = index then .node t.nodes.size
      else if id = t.nodes.size then restSlot t.mode t.fill d else (t.node id).slot i := by
  rw [node_copyFill hparent]
  by_cases hid : id = parent
  · subst hid
    rw [if_pos rfl, Node.slot_setSlot, if_neg (Nat.ne_of_lt hparent)]
    simp
  · rw [if_neg hid, if_neg (fun h : id = parent ∧ i = index => hid h.1)]
    split
    · rw [hfill]
      rfl
    · rfl

theorem depth_copyFill (index id : Nat) : ((t.copyFill parent index d).2.node id).depth =
      if id = t.nodes.size then d else (t.node id).depth := by
  rw [node_copyFill hparent]
  split
  next hid => rw [hid, if_neg (Nat.ne_of_lt hparent), Node.depth_setSlot]
  next => split <;> simp [hfill]

theorem rest_copyFill (index id : Nat) : ((t.copyFill parent index d).2.node id).rest =
      if id = t.nodes.size then restSlot t.mode t.fill d else (t.node id).rest := by
  rw [node_copyFill hparent]
  split
  next hid => rw [hid, if_neg (Nat.ne_of_lt hparent), Node.rest_setSlot]
  next => split <;> simp [hfill]

end

/-- References to levels in use after a fill level was copied. -/
theorem Sound.slot_copyFill_eq_node (h : t.Sound) (hslot : (t.node parent).slot index = .node d)
    (hd : d < t.depth) {i next : Nat} (hnext : t.depth ≤ next)
    (hid : ((t.copyFill parent index d).2.node id).slot i = .node next) :
    id = parent ∧ i = index ∧ next = t.nodes.size ∨
      (t.node id).slot i = .node next ∧ next < t.nodes.size := by
  have hparent := lt_size_of_slot hslot
  obtain ⟨hdepth, hinner⟩ := h.eq_fill hslot hd
  rw [slot_copyFill hparent (h.fill d (by omega) hd)] at hid
  split at hid
  next heq =>
    cases hid
    exact .inl ⟨heq.1, heq.2, rfl⟩
  next =>
    split at hid
    next =>
      obtain ⟨rfl, hrest⟩ := eq_of_restSlot hid
      exact absurd hrest (not_lt_of_ge hnext)
    next => exact .inr ⟨hid, (h.next hid).1⟩

section

variable (h : t.Sound) (hown : parent = 0 ∨ t.depth ≤ parent)
  (hslot : (t.node parent).slot index = .node d) (hd : d < t.depth)

include h hown hslot hd

theorem Sound.sound_copyFill : (t.copyFill parent index d).2.Sound := by
  have hparent := lt_size_of_slot hslot
  obtain ⟨hdepth, hinner⟩ := h.eq_fill hslot hd
  have hfill := h.fill d (by omega) hd
  have hslots := slot_copyFill hparent hfill index
  have hdepths := depth_copyFill hparent hfill index
  have hsize := h.size_le
  constructor
  case size_le =>
    rw [size_copyFill]
    exact Nat.le_succ_of_le hsize
  case root =>
    rw [hdepths, if_neg (by omega)]
    exact h.root
  case fill =>
    intro d' hpos hlt
    change d' < t.depth at hlt
    rw [node_copyFill hparent, if_neg (by omega), if_neg (by omega)]
    exact h.fill d' hpos hlt
  case below =>
    intro id hid
    rw [size_copyFill] at hid
    rw [hdepths]
    split
    · exact hd
    · exact h.below id (by omega)
  case rest =>
    intro id hid
    rw [size_copyFill] at hid
    rw [hdepths, rest_copyFill hparent hfill]
    split
    · rfl
    · exact h.rest id (by omega)
  case inner =>
    intro id hid hin i
    rw [size_copyFill] at hid
    change _ < t.depth at hin
    rw [hdepths] at hin ⊢
    rw [hslots]
    by_cases hcopied : id = parent ∧ i = index
    · obtain ⟨rfl, rfl⟩ := hcopied
      refine ⟨t.nodes.size, if_pos ⟨rfl, rfl⟩, by rw [size_copyFill]; omega, ?_⟩
      rw [hdepths, if_pos rfl, if_neg (Nat.ne_of_lt hparent), hdepth]
    · rw [if_neg hcopied]
      by_cases hnew : id = t.nodes.size
      · rw [if_pos hnew] at hin ⊢
        rw [if_pos hnew]
        refine ⟨d + 1, restSlot_inner hin, by rw [size_copyFill]; omega, ?_⟩
        rw [hdepths, if_neg (by omega), h.fill (d + 1) (by omega) hin]
      · rw [if_neg hnew] at hin ⊢
        rw [if_neg hnew]
        obtain ⟨next, hnext, hlt, hnextDepth⟩ := h.inner id (by omega) hin i
        refine ⟨next, hnext, by rw [size_copyFill]; omega, ?_⟩
        rw [hdepths, if_neg (Nat.ne_of_lt hlt), hnextDepth]
  case leaf =>
    intro id hid hleaf i
    rw [size_copyFill] at hid
    change _ = t.depth at hleaf
    rw [hdepths] at hleaf
    rw [hslots]
    have hcopied : ¬(id = parent ∧ i = index) := by
      rintro ⟨rfl, -⟩
      rw [if_neg (Nat.ne_of_lt hparent)] at hleaf
      omega
    rw [if_neg hcopied]
    by_cases hnew : id = t.nodes.size
    · rw [if_pos hnew] at hleaf ⊢
      exact ⟨t.fill, restSlot_leaf hleaf⟩
    · rw [if_neg hnew] at hleaf ⊢
      exact h.leaf id (by omega) hleaf i
  case parent =>
    intro a i b j next hnext ha hb
    rcases h.slot_copyFill_eq_node hslot hd hnext ha with ⟨rfl, rfl, rfl⟩ | ⟨ha, hlt⟩
    · rcases h.slot_copyFill_eq_node hslot hd hnext hb with ⟨rfl, rfl, -⟩ | ⟨-, hlt⟩
      · exact ⟨rfl, rfl⟩
      · omega
    · rcases h.slot_copyFill_eq_node hslot hd hnext hb with ⟨-, -, rfl⟩ | ⟨hb, -⟩
      · omega
      · exact h.parent hnext ha hb

/-- Copying the fill level that a slot leads to. -/
theorem Sound.grown_copyFill : Grown t (t.copyFill parent index d).2 := by
  have hparent := lt_size_of_slot hslot
  obtain ⟨hdepth, hinner⟩ := h.eq_fill hslot hd
  have hslots := slot_copyFill hparent (h.fill d (by omega) hd) index
  constructor
  case sound => exact h.sound_copyFill hown hslot hd
  case mode => rfl
  case fill => rfl
  case size => simp
  case kept =>
    intro id i next hnext hid
    have hlt := lt_size_of_slot hid
    rw [hslots, if_neg, if_neg (Nat.ne_of_lt hlt)]
    · exact hid
    · rintro ⟨rfl, rfl⟩
      rw [hslot] at hid
      cases hid
      omega
  case fresh =>
    intro id i next hnext hid
    rcases h.slot_copyFill_eq_node hslot hd hnext hid with ⟨-, -, rfl⟩ | ⟨hid, -⟩
    · exact .inr le_rfl
    · exact .inl hid
  case hosts =>
    intro id i host hid
    rw [hslots]
    split
    next heq =>
      obtain ⟨rfl, rfl⟩ := heq
      rw [hslot]
      simp
    next => rw [if_neg (Nat.ne_of_lt hid)]
  case filled =>
    intro id i host hid hhost
    rw [hslots, if_neg (by omega)] at hhost
    split at hhost
    next =>
      by_cases hrest : d + 1 < t.depth
      · rw [restSlot_inner hrest] at hhost
        cases hhost
      · rw [restSlot_leaf (Nat.le_antisymm hd (not_lt.mp hrest))] at hhost
        exact (Slot.host.inj hhost).symm
    next =>
      rw [node_of_size_le hid] at hhost
      exact (Slot.host.inj hhost).symm

end

end CopyFill

/-! ### Making leaf slots -/

/-- A leaf slot is made, and found from then on. -/
theorem Sound.ensureFrom_spec (h : t.Sound) (pc : UInt64) {levels : List Level}
    (hown : node = 0 ∨ t.depth ≤ node) (hat : t.At (l :: levels) node) :
    ∃ s, (ensureFrom pc t (l :: levels) node).1 = some s ∧
      Grown t (ensureFrom pc t (l :: levels) node).2 ∧
      (ensureFrom pc t (l :: levels) node).2.findFrom pc (l :: levels) node = some s := by
  induction levels generalizing t l node with
  | nil => exact ⟨⟨node, l.index pc⟩, rfl, .refl h, rfl⟩
  | cons l' rest ih =>
    obtain ⟨next, hslot, hnext⟩ := h.step hat pc
    rw [ensureFrom.eq_3 _ _ _ _ _ (by simp), hslot]
    simp only [show (t.copyFill node (l.index pc) next).1 = t.nodes.size from rfl]
    split
    next hfill =>
      have hgrown := h.grown_copyFill hown hslot hfill
      obtain ⟨hdepth, -⟩ := h.eq_fill hslot hfill
      have hparent := lt_size_of_slot hslot
      have hlevel := h.fill next (by omega) hfill
      have hnew : ((t.copyFill node (l.index pc) next).2.node node).slot (l.index pc) =
          .node t.nodes.size := by
        rw [slot_copyFill hparent hlevel, if_pos ⟨rfl, rfl⟩]
      have hbelow : (t.copyFill node (l.index pc) next).2.At (l' :: rest) t.nodes.size := by
        refine ⟨by simp, ?_⟩
        rw [depth_copyFill hparent hlevel, if_pos rfl]
        have hlength := hnext.depth
        rw [hlevel] at hlength
        exact hlength
      obtain ⟨s, hs, hgrown', hfind⟩ := ih hgrown.sound (.inr h.size_le) hbelow
      refine ⟨s, hs, hgrown.trans hgrown', ?_⟩
      exact (findFrom_cons_eq_some (hgrown'.kept h.size_le hnew)).mpr
        ⟨hgrown'.depth_eq ▸ h.size_le, hfind⟩
    next hused =>
      have hused := not_lt.mp hused
      obtain ⟨s, hs, hgrown, hfind⟩ := ih h (.inr hused) hnext
      exact ⟨s, hs, hgrown, (findFrom_cons_eq_some (hgrown.kept hused hslot)).mpr
        ⟨hgrown.depth_eq ▸ hused, hfind⟩⟩

theorem ensure_of_not_valid (h : t.isValid pc = false) : t.ensure pc = (none, t) := by
  simp [ensure, h]

/-- The leaf slot of a valid address is made, and found from then on. -/
theorem Sound.ensure_spec (h : t.Sound) (hvalid : t.isValid pc = true) :
    ∃ s, (t.ensure pc).1 = some s ∧ Grown t (t.ensure pc).2 ∧
      (t.ensure pc).2.find? pc = some s := by
  obtain ⟨l, levels, hlevels, hat⟩ := h.at_root
  obtain ⟨s, hs, hgrown, hfind⟩ := h.ensureFrom_spec pc (.inl rfl) hat
  rw [ensure, if_pos hvalid, hlevels]
  refine ⟨s, hs, hgrown, ?_⟩
  rw [find?, hgrown.isValid_eq, if_pos hvalid, hgrown.levels_eq, hlevels, hfind]

theorem Sound.grown_ensure (h : t.Sound) (pc : UInt64) : Grown t (t.ensure pc).2 := by
  cases hvalid : t.isValid pc with
  | true =>
    obtain ⟨s, -, hgrown, -⟩ := h.ensure_spec hvalid
    exact hgrown
  | false =>
    rw [ensure_of_not_valid hvalid]
    exact .refl h

theorem Sound.grown_prepareFrom (h : t.Sound) (start limit room pc : Nat) :
    Grown t (prepareFrom start limit room pc t).2 := by
  induction room generalizing t pc with
  | zero => exact .refl h
  | succ room ih =>
    rw [prepareFrom]
    split
    · exact .refl h
    · have hgrown := h.grown_ensure (max pc start / 4 * 4).toUInt64
      split
      next heq =>
        rw [heq] at hgrown
        exact hgrown
      next heq =>
        rw [heq] at hgrown
        exact hgrown.trans (ih hgrown.sound _)

theorem Sound.grown_prepare (h : t.Sound) (address size : UInt64) :
    Grown t (t.prepare address size).2 :=
  h.grown_prepareFrom _ _ _ _

end AddressTable

end Dynarec.Code
