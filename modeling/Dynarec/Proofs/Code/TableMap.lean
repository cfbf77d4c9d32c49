import Dynarec.Proofs.Code.TablePaths

/-!
# The address table as a map

Whatever is done to the table, looking up an address gives the code that was published for it last,
and generated code, which walks the levels as they lie in memory, arrives at the same code or at the
fill. The leaf slot of an address is fixed from the moment it is made.
-/

namespace Dynarec.Code

/-- What a slot holds in memory, where each level stands at its `base`. -/
def Slot.word (base : Nat → UInt64) : Slot → UInt64
  | node id => base id
  | host address => address

/-- The bits of an address that belong to a level, taken by a shift and a mask. -/
def Level.bitsOf (l : Level) (pc : UInt64) : UInt64 := pc >>> l.shift.toUInt64 &&& l.mask.toUInt64

theorem Level.index_lt (l : Level) (pc : UInt64) : l.index pc < l.entries := by
  apply Nat.mod_lt
  rw [Level.entries, Nat.one_shiftLeft]
  exact Nat.two_pow_pos _

namespace AddressTable

variable {t t' : AddressTable} {pc pc' : UInt64} {l : Level} {base : Nat → UInt64}
  {word : UInt64 → UInt64}

/-! ### Changes of the table -/

inductive Change where
  | publish (pc host : UInt64)
  | reset (pc : UInt64)
  | clear
  | ensure (pc : UInt64)
  | prepare (address size : UInt64)
deriving DecidableEq, Repr

def apply (t : AddressTable) : Change → AddressTable
  | .publish pc host => (t.publish pc host).2
  | .reset pc => t.reset pc
  | .clear => t.clear
  | .ensure pc => (t.ensure pc).2
  | .prepare address size => (t.prepare address size).2

def applyAll (t : AddressTable) (changes : List Change) : AddressTable := changes.foldl apply t

/-- A change of the map from addresses to code that the table stands for. Publishing the fill
publishes nothing. -/
def Change.onMap (fill : UInt64) (map : UInt64 → Option UInt64) (change : Change) (a : UInt64) :
    Option UInt64 :=
  match change with
  | publish pc host => if a = pc then if host = fill then none else some host else map a
  | reset pc => if a = pc then none else map a
  | clear => none
  | ensure _ | prepare _ _ => map a

/-- The code that was published for an address and neither reset nor cleared since. -/
def published (fill : UInt64) (changes : List Change) : UInt64 → Option UInt64 :=
  changes.foldl (Change.onMap fill) fun _ => none

/-! ### What stays -/

/-- A later state of a table: every leaf slot is where it was. -/
structure Later (t t' : AddressTable) : Prop where
  sound : t'.Sound
  mode : t'.mode = t.mode
  fill : t'.fill = t.fill
  found : ∀ {pc s}, t.find? pc = some s → t'.find? pc = some s

theorem Grown.later (h : Grown t t') (ht : t.Sound) : Later t t' :=
  ⟨h.sound, h.mode, h.fill, h.find?_eq ht⟩

theorem Repainted.later (h : Repainted t t') (ht : t.Sound) : Later t t' :=
  ⟨h.sound ht, h.mode, h.fill, (h.find?_eq ht).trans⟩

namespace Later

theorem refl (h : t.Sound) : Later t t := ⟨h, rfl, rfl, id⟩

theorem trans {t'' : AddressTable} (h : Later t t') (h' : Later t' t'') : Later t t'' :=
  ⟨h'.sound, h'.mode.trans h.mode, h'.fill.trans h.fill, fun hs => h'.found (h.found hs)⟩

theorem isValid_eq (h : Later t t') : t'.isValid pc = t.isValid pc := by
  simp only [isValid, invalidMask, coveredBits, levels, h.mode]

end Later

/-! ### One change -/

theorem publish_of_not_valid (h : t.isValid pc = false) (host : UInt64) :
    t.publish pc host = (false, t) := by
  simp [publish, ensure_of_not_valid h]

theorem reset_of_not_valid (h : t.isValid pc = false) : t.reset pc = t := by
  simp [reset, find?, h]

namespace Sound

section

variable (h : t.Sound)

include h

/-- Writing the leaf slot of one address. -/
theorem walk_setSlot {s : LeafSlot} (hs : t.find? pc = some s) (host : UInt64)
    (hvalid' : t.isValid pc' = true) :
    (t.setSlot s.node s.index (.host host)).walk pc' = if pc' = pc then host else t.walk pc' := by
  have hleaf := h.isLeaf_of_find? hs
  have hpaint := h.repainted_setSlot hleaf host
  cases hfind : t.find? pc' with
  | none =>
    have hne : pc' ≠ pc := by
      rintro rfl
      rw [hfind] at hs
      cases hs
    rw [if_neg hne, h.walk_of_not_find? hvalid' hfind,
      (hpaint.sound h).walk_of_not_find? (hpaint.isValid_eq.trans hvalid')
        ((hpaint.find?_eq h).trans hfind)]
    rfl
  | some s' =>
    have hwalk := (hpaint.sound h).walk_of_find? ((hpaint.find?_eq h).trans hfind)
    rw [hleaf.slot_setSlot] at hwalk
    by_cases heq : pc' = pc
    · subst heq
      rw [hfind] at hs
      cases hs
      rw [if_pos rfl] at hwalk ⊢
      exact (Slot.host.inj hwalk).symm
    · have hslot : s' ≠ s := by
        rintro rfl
        exact heq (h.find?_inj hfind hs)
      rw [if_neg hslot, h.walk_of_find? hfind] at hwalk
      rw [if_neg heq]
      exact (Slot.host.inj hwalk).symm

/-- Publishing makes the leaf slot of the address and writes it. -/
theorem publish_spec (hvalid : t.isValid pc = true) (host : UInt64) : (t.publish pc host).1
    = true ∧ Later t (t.publish pc host).2 ∧
      ∀ {pc'}, t.isValid pc' = true →
        (t.publish pc host).2.walk pc' = if pc' = pc then host else t.walk pc' := by
  obtain ⟨s, hs, hgrown, hfind⟩ := h.ensure_spec hvalid
  have hleaf := hgrown.sound.isLeaf_of_find? hfind
  have heq : t.publish pc host = (true, (t.ensure pc).2.setSlot s.node s.index (.host host)) := by
    rw [publish]
    split
    next s' t' hens =>
      rw [hens] at hs ⊢
      cases hs
      rfl
    next t' hens =>
      rw [hens] at hs
      cases hs
  rw [heq]
  refine ⟨rfl, (hgrown.later h).trans
    ((hgrown.sound.repainted_setSlot hleaf host).later hgrown.sound), fun hvalid' => ?_⟩
  rw [hgrown.sound.walk_setSlot hfind host (hgrown.isValid_eq.trans hvalid'),
    hgrown.walk_eq h hvalid']

theorem reset_spec (pc : UInt64) :
    Later t (t.reset pc) ∧
      ∀ {pc'}, t.isValid pc' = true →
        (t.reset pc).walk pc' = if pc' = pc then t.fill else t.walk pc' := by
  rw [reset]
  split
  next s hs =>
    exact ⟨(h.repainted_setSlot (h.isLeaf_of_find? hs) t.fill).later h, h.walk_setSlot hs t.fill⟩
  next hs =>
    refine ⟨.refl h, fun hvalid' => ?_⟩
    split
    next heq =>
      subst heq
      exact h.walk_of_not_find? hvalid' hs
    next => rfl

theorem clear_spec : Later t t.clear ∧ ∀ {pc}, t.isValid pc = true → t.clear.walk pc = t.fill := by
  have hpaint := h.repainted_clear
  refine ⟨hpaint.later h, fun {pc} hvalid => ?_⟩
  cases hfind : t.find? pc with
  | none =>
    rw [(hpaint.sound h).walk_of_not_find? (hpaint.isValid_eq.trans hvalid)
      ((hpaint.find?_eq h).trans hfind)]
    rfl
  | some s =>
    have hleaf := h.isLeaf_of_find? hfind
    have hwalk := (hpaint.sound h).walk_of_find? ((hpaint.find?_eq h).trans hfind)
    rw [slot, h.slot_clear hleaf.lt hleaf.depth] at hwalk
    exact (Slot.host.inj hwalk).symm

theorem later_apply (change : Change) : Later t (t.apply change) := by
  cases change with
  | publish pc host =>
    cases hvalid : t.isValid pc with
    | true => exact (h.publish_spec hvalid host).2.1
    | false =>
      rw [apply, publish_of_not_valid hvalid]
      exact .refl h
  | reset pc => exact (h.reset_spec pc).1
  | clear => exact h.clear_spec.1
  | ensure pc => exact (h.grown_ensure pc).later h
  | prepare address size => exact (h.grown_prepare address size).later h

theorem later_applyAll (changes : List Change) : Later t (t.applyAll changes) := by
  refine List.foldlRecOn changes apply (.refl h) fun t' hlater change _ => ?_
  exact hlater.trans (hlater.sound.later_apply change)

end

end Sound

/-- A slot that was handed out for an address is handed out for it ever after, and holds what the
address leads to. -/
theorem Later.ensure_eq (hlater : Later t t') {s : LeafSlot} (hs : t.find? pc = some s) :
    (t'.ensure pc).1 = some s ∧ t'.slot s = .host (t'.walk pc) := by
  have hfind := hlater.found hs
  have hvalid : t'.isValid pc = true := by
    by_contra hnot
    rw [find?, if_neg hnot] at hfind
    cases hfind
  obtain ⟨s', hs', hgrown, hfind'⟩ := hlater.sound.ensure_spec hvalid
  rw [hgrown.find?_eq hlater.sound hfind] at hfind'
  cases hfind'
  exact ⟨hs', hlater.sound.walk_of_find? hfind⟩

/-! ### The map -/

structure Represents (t : AddressTable) (map : UInt64 → Option UInt64) : Prop where
  sound : t.Sound
  walk : ∀ pc, t.isValid pc = true → t.walk pc = (map pc).getD t.fill
  proper : ∀ pc, map pc ≠ some t.fill

namespace Represents

variable {map : UInt64 → Option UInt64}

theorem ofMode (mode : Guest.Mode) (fill : UInt64) :
    (ofMode mode fill).Represents fun _ => none where
  sound := sound_ofMode mode fill
  walk pc hvalid := by
    cases hfind : (AddressTable.ofMode mode fill).find? pc with
    | none => exact (sound_ofMode mode fill).walk_of_not_find? hvalid hfind
    | some s =>
      have hleaf := (sound_ofMode mode fill).isLeaf_of_find? hfind
      exact absurd hleaf.lt (size_ofMode mode fill ▸ not_lt_of_ge hleaf.own)
  proper _ := nofun

section

variable (h : t.Represents map)

include h

theorem lookup_eq (hvalid : t.isValid pc = true) : t.lookup pc = map pc := by
  rw [h.sound.lookup_eq hvalid, h.walk pc hvalid]
  cases hmap : map pc with
  | none => simp
  | some host =>
    have hproper : host ≠ t.fill := fun heq => h.proper pc (heq ▸ hmap)
    simp [hproper]

/-- Each change does to the table what it does to the map. -/
theorem apply (change : Change) : (t.apply change).Represents (change.onMap t.fill map) := by
  have hlater := h.sound.later_apply change
  refine ⟨hlater.sound, fun pc' hvalid' => ?_, fun pc' => ?_⟩
  · rw [hlater.isValid_eq] at hvalid'
    rw [hlater.fill]
    have hwalk := h.walk pc' hvalid'
    cases change with
    | publish pc host =>
      rw [Change.onMap]
      cases hvalid : t.isValid pc with
      | true =>
        rw [AddressTable.apply, (h.sound.publish_spec hvalid host).2.2 hvalid', hwalk]
        split
        · split
          next heq => exact heq
          next => rfl
        · rfl
      | false =>
        have hne : pc' ≠ pc := by
          rintro rfl
          rw [hvalid'] at hvalid
          cases hvalid
        rw [AddressTable.apply, publish_of_not_valid hvalid, if_neg hne, hwalk]
    | reset pc =>
      rw [AddressTable.apply, (h.sound.reset_spec pc).2 hvalid', Change.onMap, hwalk]
      split <;> rfl
    | clear => exact h.sound.clear_spec.2 hvalid'
    | ensure pc => exact ((h.sound.grown_ensure pc).walk_eq h.sound hvalid').trans hwalk
    | prepare address size =>
      exact ((h.sound.grown_prepare address size).walk_eq h.sound hvalid').trans hwalk
  · rw [hlater.fill]
    cases change with
    | publish pc host =>
      rw [Change.onMap]
      split
      · split
        · nofun
        next hne => exact fun heq => hne (Option.some.inj heq)
      · exact h.proper pc'
    | reset pc =>
      rw [Change.onMap]
      split
      · nofun
      · exact h.proper pc'
    | clear => nofun
    | ensure pc => exact h.proper pc'
    | prepare address size => exact h.proper pc'

/-- A change that leaves the code of an address alone in the map leaves it alone in the table. -/
theorem lookup_apply_of_ne (change : Change) (hmap : change.onMap t.fill map pc = map pc) :
    (t.apply change).lookup pc = t.lookup pc := by
  have hlater := h.sound.later_apply change
  cases hvalid : t.isValid pc with
  | true =>
    rw [(h.apply change).lookup_eq (hlater.isValid_eq.trans hvalid), h.lookup_eq hvalid, hmap]
  | false =>
    rw [lookup_of_not_valid hvalid, lookup_of_not_valid (hlater.isValid_eq.trans hvalid)]

theorem applyAll (changes : List Change) : (t.applyAll changes).Represents
    (changes.foldl (Change.onMap t.fill) map) := by
  induction changes generalizing t map with
  | nil => exact h
  | cons change rest ih =>
    have hrest := ih (h.apply change)
    rw [(h.sound.later_apply change).fill] at hrest
    exact hrest

end

end Represents

/-! ### The table in memory -/

def Image (t : AddressTable) (base : Nat → UInt64) (word : UInt64 → UInt64) : Prop :=
  ∀ id < t.nodes.size, ∀ l, t.levels[(t.node id).depth]? = some l → ∀ i < l.entries,
    word (base id + 8 * i.toUInt64) = ((t.node id).slot i).word base

def loadWalk (word : UInt64 → UInt64) (pc : UInt64) (levels : List Level) (root : UInt64) :
    UInt64 :=
  levels.foldl (fun here l => word (here + 8 * l.bitsOf pc)) root

theorem shift_bits_le (hl : l ∈ t.levels) : l.shift < 64 ∧ l.bits ≤ 10 := by
  revert l
  cases hmode : t.mode <;> simp [levels, hmode, levelsOf]

theorem bitsOf_eq_index (hl : l ∈ t.levels) : l.bitsOf pc = (l.index pc).toUInt64 := by
  obtain ⟨hshift, hbits⟩ := shift_bits_le hl
  have hentries : l.entries = 2 ^ l.bits := Nat.one_shiftLeft l.bits
  have hpow : 2 ^ l.bits < UInt64.size :=
    (Nat.pow_le_pow_right (by decide) hbits).trans_lt (by decide)
  have hpos : 0 < 2 ^ l.bits := Nat.two_pow_pos _
  apply UInt64.toNat_inj.mp
  have hmask : l.mask.toUInt64.toNat = 2 ^ l.bits - 1 := by
    rw [Level.mask, hentries]
    exact Nat.mod_eq_of_lt ((Nat.sub_le _ _).trans_lt hpow)
  have hamount : l.shift.toUInt64.toNat % 64 = l.shift := by
    rw [show l.shift.toUInt64.toNat = l.shift from Nat.mod_eq_of_lt (by omega)]
    exact Nat.mod_eq_of_lt hshift
  have hindex : (l.index pc).toUInt64.toNat = pc.toNat >>> l.shift % 2 ^ l.bits := by
    rw [Level.index, hentries]
    exact Nat.mod_eq_of_lt ((Nat.mod_lt _ hpos).trans hpow)
  rw [Level.bitsOf, UInt64.toNat_and, UInt64.toNat_shiftRight, hmask, hamount, hindex,
    Nat.and_two_pow_sub_one_eq_mod]

/-- In memory as in the table, the levels below a level lead to the same word. -/
theorem Sound.loadWalk_from (h : t.Sound) (himage : t.Image base word) {levels : List Level}
    {node : Nat} (hat : t.At levels node) (hsuffix : levels <:+ t.levels) :
    loadWalk word pc levels (base node) = (t.walkFrom pc levels node).word base := by
  induction levels generalizing node with
  | nil => rfl
  | cons l rest ih =>
    have hl : t.levels[(t.node node).depth]? = some l := by
      obtain ⟨front, hfront⟩ := hsuffix
      have hlength := congrArg List.length hfront
      have hdepth := hat.depth
      simp only [List.length_append, length_levels] at hlength hdepth
      rw [← hfront, show (t.node node).depth = front.length by omega]
      simp
    have hmem : l ∈ t.levels := List.mem_of_getElem? hl
    have hword := himage node hat.lt l hl (l.index pc) (Level.index_lt l pc)
    rw [loadWalk, List.foldl_cons, bitsOf_eq_index hmem, hword]
    have hdepth := hat.depth
    rw [List.length_cons] at hdepth
    rcases Nat.lt_or_eq_of_le (h.below node hat.lt) with hinner | hleaf
    · obtain ⟨next, hslot, hlt, hnext⟩ := h.inner node hat.lt hinner (l.index pc)
      rw [hslot, walkFrom_cons hslot]
      refine ih ⟨hlt, by omega⟩ ((List.suffix_cons l rest).trans hsuffix)
    · obtain ⟨host, hhost⟩ := h.leaf node hat.lt hleaf (l.index pc)
      obtain rfl : rest = [] := List.eq_nil_of_length_eq_zero (by omega)
      rw [walkFrom, hhost]
      rfl

/-- Walking the table in memory ends where the table leads. -/
theorem Sound.loadWalk_eq (h : t.Sound) (himage : t.Image base word) (pc : UInt64) :
    loadWalk word pc t.levels (base 0) = t.walk pc := by
  obtain ⟨l, levels, hlevels, hat⟩ := h.at_root
  rw [walk, hlevels, h.loadWalk_from himage hat (hlevels ▸ List.suffix_refl _)]
  have hend : ∃ host, t.walkFrom pc (l :: levels) 0 = .host host := by
    cases hfind : t.findFrom pc (l :: levels) 0 with
    | none => exact ⟨t.fill, (h.findFrom_spec hat).2 hfind⟩
    | some s =>
      obtain ⟨hwalk, hlt, hdepth, -⟩ := (h.findFrom_spec hat).1 s hfind
      rw [hwalk]
      exact h.leaf s.node hlt hdepth s.index
  obtain ⟨host, hhost⟩ := hend
  rw [hhost]
  rfl

/-- Levels one after the other, each with room for the largest. -/
def rowBase (id : Nat) : UInt64 := (8192 * id).toUInt64

def rowWord (t : AddressTable) (a : UInt64) : UInt64 :=
  ((t.node (a.toNat / 8192)).slot (a.toNat % 8192 / 8)).word rowBase

/-- A table can be laid out in memory. -/
theorem image_row (h : t.nodes.size ≤ 2 ^ 50) : t.Image rowBase t.rowWord := by
  intro id hid l hl i hi
  have hentries : l.entries ≤ 2 ^ 10 := by
    rw [Level.entries, Nat.one_shiftLeft]
    exact Nat.pow_le_pow_right (by decide) (shift_bits_le (List.mem_of_getElem? hl)).2
  have haddress : (rowBase id + 8 * i.toUInt64).toNat = 8192 * id + 8 * i := by
    rw [UInt64.toNat_add, UInt64.toNat_mul]
    simp only [rowBase, UInt64.toNat_ofNat', UInt64.reduceToNat]
    omega
  rw [rowWord, haddress, show (8192 * id + 8 * i) / 8192 = id by omega,
    show (8192 * id + 8 * i) % 8192 / 8 = i by omega]

/-- After any changes, an address leads to the code that was published for it last, in the table
and in memory; no other address is touched on the way, and neither are the fill levels. A slot that
was made for an address stays its slot. -/
theorem leads_to_published (mode : Guest.Mode) (fill : UInt64) (changes : List Change) :
    let t := (ofMode mode fill).applyAll changes
    (∀ pc, t.isValid pc = true →
      t.lookup pc = published fill changes pc ∧ t.walk pc = (t.lookup pc).getD fill ∧
        ∀ base word, t.Image base word →
          loadWalk word pc t.levels (base 0) = (t.lookup pc).getD fill) ∧
    (∀ pc host pc', pc' ≠ pc → (t.publish pc host).2.lookup pc' = t.lookup pc' ∧
      (t.reset pc).lookup pc' = t.lookup pc') ∧
    (∀ d, 0 < d → d < t.depth → t.node d = (ofMode mode fill).node d) ∧
    (∀ pc, t.isValid pc = true → ∃ s, (t.ensure pc).1 = some s ∧ ∀ later,
      let t' := (t.ensure pc).2.applyAll later
      (t'.ensure pc).1 = some s ∧ t'.slot s = .host ((t'.lookup pc).getD fill) ∧
        (∀ host, (t'.publish pc host).1 = true ∧ (t'.publish pc host).2.slot s = .host host) ∧
        (t'.reset pc).slot s = .host fill) ∧
    ∀ pc host, t.isValid pc = false →
      t.publish pc host = (false, t) ∧ t.reset pc = t ∧ t.ensure pc = (none, t) := by
  intro t
  have hrep : t.Represents (published fill changes) :=
    (Represents.ofMode mode fill).applyAll changes
  have hlater : Later (ofMode mode fill) t := (sound_ofMode mode fill).later_applyAll changes
  have hfill : t.fill = fill := hlater.fill
  refine ⟨fun pc hvalid => ?_, fun pc host pc' hne => ?_, fun d hpos hd => ?_, fun pc hvalid => ?_,
    fun pc host hvalid => ?_⟩
  · have hwalk : t.walk pc = (t.lookup pc).getD fill := by
      rw [hrep.lookup_eq hvalid, hrep.walk pc hvalid, hfill]
    refine ⟨hrep.lookup_eq hvalid, hwalk, fun base word himage => ?_⟩
    rw [hrep.sound.loadWalk_eq himage, hwalk]
  · exact ⟨hrep.lookup_apply_of_ne (.publish pc host) (if_neg hne),
      hrep.lookup_apply_of_ne (.reset pc) (if_neg hne)⟩
  · rw [depth, hlater.mode] at hd
    rw [node_ofMode mode fill hd, hrep.sound.fill d hpos (by rw [depth, hlater.mode]; exact hd),
      hlater.mode, hfill]
    rfl
  · obtain ⟨s, hs, hgrown, hfind⟩ := hrep.sound.ensure_spec hvalid
    refine ⟨s, hs, fun later => ?_⟩
    intro t'
    have hlater' : Later (t.ensure pc).2 t' := hgrown.sound.later_applyAll later
    have hvalid' : t'.isValid pc = true :=
      hlater'.isValid_eq.trans (hgrown.isValid_eq.trans hvalid)
    have hfill' : t'.fill = fill := (hlater'.fill.trans hgrown.fill).trans hfill
    obtain ⟨hensure, hslot⟩ := hlater'.ensure_eq hfind
    have hreset := hlater'.sound.reset_spec pc
    refine ⟨hensure, ?_, fun host => ?_, ?_⟩
    · rw [hslot, hlater'.sound.lookup_eq hvalid', hfill']
      split
      next heq => rw [heq]; rfl
      next => rfl
    · obtain ⟨hdone, hpublished, hwalk⟩ := hlater'.sound.publish_spec hvalid' host
      refine ⟨hdone, ?_⟩
      rw [((hlater'.trans hpublished).ensure_eq hfind).2, hwalk hvalid', if_pos rfl]
    · rw [((hlater'.trans hreset.1).ensure_eq hfind).2, hreset.2 hvalid', if_pos rfl, hfill']
  · exact ⟨publish_of_not_valid hvalid host, reset_of_not_valid hvalid, ensure_of_not_valid hvalid⟩

/-- A table in which one address was published and reset and another one published. -/
theorem leads_to_published_twoAddresses :
    let changes := [.publish 0x8000 1, .publish 0x90000000 2, .reset 0x8000, .ensure 0x8004]
    let t := (ofMode .a32 0xf111).applyAll changes
    t.isValid 0x90000000 = true ∧ t.Image rowBase t.rowWord ∧
      t.lookup 0x90000000 = some 2 ∧ loadWalk t.rowWord 0x90000000 t.levels (rowBase 0) = 2 ∧
      t.isValid 0x8002 = false ∧ t.publish 0x8002 7 = (false, t) ∧
      (t.reset 0x90000000).lookup 0x8000 = t.lookup 0x8000 := by
  intro changes t
  have hvalid : t.isValid 0x90000000 = true := by decide
  have hnot : t.isValid 0x8002 = false := by decide
  have himage : t.Image rowBase t.rowWord := image_row (by decide +kernel)
  have hlookup : t.lookup 0x90000000 = some 2 := by decide +kernel
  obtain ⟨hleads, hapart, -, -, hinvalid⟩ := leads_to_published .a32 0xf111 changes
  have hwalk := (hleads 0x90000000 hvalid).2.2 rowBase t.rowWord himage
  rw [hlookup] at hwalk
  exact ⟨hvalid, himage, hlookup, hwalk, hnot, (hinvalid 0x8002 7 hnot).1,
    (hapart 0x90000000 7 0x8000 (by decide)).2⟩

end AddressTable

end Dynarec.Code
