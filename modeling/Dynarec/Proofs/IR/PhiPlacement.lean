import Dynarec.IR.SSA
import Dynarec.Proofs.IR.DominatorTree
import Mathlib.Data.List.Perm.Subperm
import Mathlib.Data.List.Infix

/-!
# Placement of phis

For each register, phis are put in front of blocks until every block in the frontier of a block that
defines the register, or that has a phi for it, has one.
-/

namespace Dynarec.IR.SSA

open List

/-- The phis of each block, with the numbers of their registers. -/
abbrev Heads := BlockId → List (OpId × Nat)

def Heads.Has (heads : Heads) (b : BlockId) (i : Nat) : Prop := i ∈ (heads b).map Prod.snd

variable {f : Function} {regs : List (GuestReg × OperandId)} {g : Function}
  {phis : List (OpId × Nat)} {heads : Heads} {t : DominatorTree} {b : BlockId} {i : Nat}

variable (f regs g phis heads) in
structure Placed : Prop extends Function.Added f g where
  code : ∀ b, g.program.code b = (heads b).map Prod.fst ++ f.program.code b
  phi : ∀ b, ∀ e ∈ heads b, ∃ r, regs[e.2]? = some r ∧
    g.program.stmt e.1 = ⟨.phi, some r.2, (f.program.preds b).map fun _ => r.2⟩
  fresh : ∀ b, ∀ e ∈ heads b, f.operations.size ≤ e.1.index
  lookup : ∀ id i, phis.lookup id = some i ↔ ∃ b, (id, i) ∈ heads b
  nodup : ∀ b, ((heads b).map Prod.snd).Nodup

theorem Heads.mem_insert {e x : OpId × Nat} {c : BlockId} :
    e ∈ Function.update heads b (x :: heads b) c ↔ c = b ∧ e = x ∨ e ∈ heads c := by
  rw [Function.update_apply]
  split
  next hcb => simp [hcb]
  next hcb => simp [hcb]

theorem Heads.has_insert {id : OpId} {c : BlockId} {j : Nat} :
    Heads.Has (Function.update heads b ((id, i) :: heads b)) c j ↔
      c = b ∧ j = i ∨ heads.Has c j := by
  rw [Heads.Has, Function.update_apply]
  split
  next hcb => simp [hcb, Heads.Has]
  next hcb => simp [hcb, Heads.Has]

theorem Placed.refl (h : f.WellFormed) : Placed f regs f [] fun _ => [] where
  toAdded := .refl h
  code _ := rfl
  phi _ := forall_mem_nil _
  fresh _ := forall_mem_nil _
  lookup id i := by simp
  nodup _ := nodup_nil

theorem Placed.mem_code (h : Placed f regs g phis heads) {e : OpId × Nat} (he : e ∈ heads b) :
    e.1 ∈ g.program.code b := by
  rw [h.code]
  exact mem_append_left _ (mem_map_of_mem he)

/-- One more phi in a block that has none for the register. -/
theorem Placed.insert (h : Placed f regs g phis heads) (hb : b.index < f.blocks.size)
    (hlen : (f.predecessors b).length ≤ maxSources) {r : GuestReg × OperandId}
    (hr : regs[i]? = some r) (hlt : r.2.index < f.operands.size) (hnot : ¬heads.Has b i)
    {res : OpId × Function}
    (hres : res = g.pushFront b .phi (some r.2) ((g.predecessors b).map fun _ => r.2)) :
    Placed f regs res.2 (phis ++ [(res.1, i)])
      (Function.update heads b ((res.1, i) :: heads b)) := by
  have hpreds : g.predecessors b = f.predecessors b := h.pools.predecessors b
  have hins : Function.Inserted g b ⟨.phi, some r.2, (g.predecessors b).map fun _ => r.2⟩
      (⟨g.operations.size⟩ :: g.program.code b) res := by
    rw [hres]
    refine h.wf.inserted_pushFront .phi (h.pools.blocks ▸ hb) ?_ ?_ ?_
    · simpa [hpreds] using hlen
    · simp [h.pools.operands, hlt]
    · simp [h.pools.operands, hlt]
  have hnew : phis.lookup res.1 = none := by
    rw [Option.eq_none_iff_forall_ne_some]
    intro j hj
    obtain ⟨c, hc⟩ := (h.lookup _ _).mp hj
    have := h.wf.lt_operations (h.mem_code hc)
    rw [hins.id_eq] at this
    exact lt_irrefl _ this
  refine ⟨h.toAdded.trans hins.added, ?_, ?_, ?_, ?_, ?_⟩
  · intro c
    rw [hins.program, Program.code_withCode, Function.update_apply]
    split
    · next hcb =>
      rw [hcb, h.code, hins.id_eq]
      rfl
    · exact h.code c
  · intro c e he
    rcases Heads.mem_insert.mp he with ⟨rfl, rfl⟩ | he
    · refine ⟨r, hr, ?_⟩
      rw [hins.id_eq, hins.stmt_new, hpreds]
      rfl
    · rw [hins.stmt_of_lt (h.wf.lt_operations (h.mem_code he))]
      exact h.phi c e he
  · intro c e he
    rcases Heads.mem_insert.mp he with ⟨rfl, rfl⟩ | he
    · rw [hins.id_eq]
      exact h.size
    · exact h.fresh c e he
  · intro id j
    rw [lookup_append, Option.or_eq_some_iff, h.lookup]
    constructor
    · rintro (⟨c, hc⟩ | ⟨-, hj⟩)
      · exact ⟨c, Heads.mem_insert.mpr (.inr hc)⟩
      · exact ⟨b, Heads.mem_insert.mpr (.inl ⟨rfl, by simpa using mem_of_lookup hj⟩)⟩
    · rintro ⟨c, hc⟩
      rcases Heads.mem_insert.mp hc with ⟨-, ⟨⟩⟩ | hc
      · exact .inr ⟨hnew, by simp⟩
      · exact .inl ⟨c, hc⟩
  · intro c
    rw [Function.update_apply]
    split
    · exact nodup_cons.mpr ⟨hnot, h.nodup b⟩
    · exact h.nodup c

/-! ### One register -/

/-- Placement for register `i` so far: its phis are where `placed` says, the others as before. -/
structure Placing (f : Function) (regs : List (GuestReg × OperandId)) (i : Nat)
    (before heads : Heads) (p : Placement) : Prop where
  placed : Placed f regs p.f p.phis heads
  has : ∀ b, heads.Has b i ↔ b ∈ p.placed
  others : ∀ b j, j ≠ i → (heads.Has b j ↔ before.Has b j)
  nodup : p.placed.Nodup

/-- What a step of placement keeps, and that it pays for the work it adds. -/
structure Placement.Grows (defs : List BlockId) (p q : Placement) : Prop where
  placed : p.placed ⊆ q.placed
  work : p.work ⊆ q.work
  new : ∀ b ∈ q.placed, b ∈ p.placed ∨ b ∈ defs ∨ b ∈ q.work
  cost : q.work.length + p.placed.length ≤ p.work.length + q.placed.length

namespace Placement.Grows

variable {defs : List BlockId} {p q s : Placement}

theorem refl : Grows defs p p :=
  ⟨List.Subset.refl _, List.Subset.refl _, fun _ hb => .inl hb, le_rfl⟩

theorem trans (h : Grows defs p q) (h' : Grows defs q s) : Grows defs p s := by
  refine ⟨List.Subset.trans h.placed h'.placed, List.Subset.trans h.work h'.work,
    fun b hb => ?_, ?_⟩
  · rcases h'.new b hb with hb | hb | hb
    · rcases h.new b hb with hb | hb | hb
      · exact .inl hb
      · exact .inr (.inl hb)
      · exact .inr (.inr (h'.work hb))
    · exact .inr (.inl hb)
    · exact .inr (.inr hb)
  · have := h.cost
    have := h'.cost
    omega

end Placement.Grows

variable {before : Heads} {defs : List BlockId} {r : GuestReg × OperandId} {p : Placement}

theorem Placing.place (h : Placing f regs i before heads p) (hb : b.index < f.blocks.size)
    (hlen : (f.predecessors b).length ≤ maxSources) (hr : regs[i]? = some r)
    (hlt : r.2.index < f.operands.size) :
    ∃ heads', Placing f regs i before heads' (p.place defs i r.2 b) ∧
      Placement.Grows defs p (p.place defs i r.2 b) ∧ b ∈ (p.place defs i r.2 b).placed ∧
      ∀ c ∈ (p.place defs i r.2 b).placed, c ∈ p.placed ∨ c = b := by
  unfold Placement.place
  split
  · next hmem =>
    rw [contains_iff_mem] at hmem
    exact ⟨heads, h, .refl, hmem, fun c hc => .inl hc⟩
  · next hmem =>
    rw [contains_iff_mem] at hmem
    have hnot : ¬heads.Has b i := fun hhas => hmem ((h.has b).mp hhas)
    refine ⟨_, ⟨h.placed.insert hb hlen hr hlt hnot rfl, ?_, ?_, ?_⟩, ⟨?_, ?_, ?_, ?_⟩, .head _, ?_⟩
    · intro c
      simp [Heads.has_insert, h.has]
    · intro c j hj
      simp [Heads.has_insert, hj, h.others]
    · exact nodup_cons.mpr ⟨hmem, h.nodup⟩
    · exact subset_cons_self _ _
    · split
      · exact List.Subset.refl _
      · exact subset_cons_self _ _
    · intro c hc
      rcases mem_cons.mp hc with rfl | hc
      · split
        · next hdef => exact .inr (.inl (contains_iff_mem.mp hdef))
        · exact .inr (.inr (.head _))
      · exact .inl hc
    · split
      · simp
      · simp
        omega
    · intro c hc
      rcases mem_cons.mp hc with rfl | hc
      · exact .inr rfl
      · exact .inl hc

variable (defs) in
theorem Placing.foldl_place (h : Placing f regs i before heads p) {bs : List BlockId}
    (hbs : ∀ b ∈ bs, b.index < f.blocks.size ∧ (f.predecessors b).length ≤ maxSources)
    (hr : regs[i]? = some r) (hlt : r.2.index < f.operands.size) :
    ∃ heads', Placing f regs i before heads' (bs.foldl (Placement.place defs i r.2) p) ∧
      Placement.Grows defs p (bs.foldl (Placement.place defs i r.2) p) ∧
      bs ⊆ (bs.foldl (Placement.place defs i r.2) p).placed ∧
      ∀ c ∈ (bs.foldl (Placement.place defs i r.2) p).placed, c ∈ p.placed ∨ c ∈ bs := by
  induction bs generalizing p heads with
  | nil => exact ⟨heads, h, .refl, nil_subset _, fun c hc => .inl hc⟩
  | cons b bs ih =>
    obtain ⟨hb, hlen⟩ := hbs b mem_cons_self
    obtain ⟨heads₁, h₁, hgrows, hmem, hnew⟩ := h.place hb hlen hr hlt
    obtain ⟨heads₂, h₂, hgrows', hsub, hnew'⟩ :=
      ih h₁ fun c hc => hbs c (mem_cons_of_mem _ hc)
    refine ⟨heads₂, h₂, hgrows.trans hgrows', ?_, ?_⟩
    · exact cons_subset.mpr ⟨hgrows'.placed hmem, hsub⟩
    · intro c hc
      rcases hnew' c hc with hc | hc
      · rcases hnew c hc with hc | rfl
        · exact .inl hc
        · exact .inr mem_cons_self
      · exact .inr (mem_cons_of_mem _ hc)

/-- The frontiers of the blocks that define a register or have a phi for it have phis, up to the
blocks still to be looked at. -/
def Covers (t : DominatorTree) (defs : List BlockId) (p : Placement) : Prop :=
  ∀ b, b ∈ defs ∨ b ∈ p.placed → b ∈ p.work ∨ t.frontier b ⊆ p.placed

/-- Frontier blocks may have phis: they exist and have few predecessors. -/
def Fits (f : Function) (t : DominatorTree) : Prop :=
  ∀ x, ∀ b ∈ t.frontier x, b.index < f.blocks.size ∧ (f.predecessors b).length ≤ maxSources

variable (defs) in
theorem Placing.run (fuel : Nat) (h : Placing f regs i before heads p) (hfits : Fits f t)
    (hr : regs[i]? = some r) (hlt : r.2.index < f.operands.size)
    (hfrom : ∀ b ∈ p.placed, ∃ x, b ∈ t.frontier x) (hcovers : Covers t defs p)
    {bound : Nat} (hbound : ∀ l : List BlockId, l.Nodup → (∀ b ∈ l, ∃ x, b ∈ t.frontier x) →
      l.length ≤ bound)
    (hfuel : p.work.length + bound < fuel + p.placed.length) :
    ∃ heads', Placing f regs i before heads' (Placement.run t defs i r.2 fuel p) ∧
      (∀ b ∈ (Placement.run t defs i r.2 fuel p).placed, ∃ x, b ∈ t.frontier x) ∧
      ∀ b, b ∈ defs ∨ b ∈ (Placement.run t defs i r.2 fuel p).placed →
        t.frontier b ⊆ (Placement.run t defs i r.2 fuel p).placed := by
  induction fuel generalizing p heads with
  | zero =>
    have := hbound p.placed h.nodup hfrom
    omega
  | succ fuel ih =>
    rw [Placement.run]
    split
    · next hwork =>
      refine ⟨heads, h, hfrom, fun b hb => (hcovers b hb).resolve_left ?_⟩
      rw [hwork]
      exact not_mem_nil
    · next b work hwork =>
      have h₀ : Placing f regs i before heads { p with work } :=
        ⟨h.placed, h.has, h.others, h.nodup⟩
      obtain ⟨heads₁, h₁, hgrows, hsub, hnew⟩ := h₀.foldl_place defs (hfits b) hr hlt
      generalize (t.frontier b).foldl (Placement.place defs i r.2) { p with work } = q at *
      refine ih h₁ ?_ ?_ ?_
      · intro c hc
        rcases hnew c hc with hc | hc
        · exact hfrom c hc
        · exact ⟨b, hc⟩
      · intro c hc
        have hold : c ∈ defs ∨ c ∈ p.placed → c ∈ q.work ∨ t.frontier c ⊆ q.placed := by
          intro hc
          rcases hcovers c hc with hc | hc
          · rw [hwork] at hc
            rcases mem_cons.mp hc with rfl | hc
            · exact .inr hsub
            · exact .inl (hgrows.work hc)
          · exact .inr (List.Subset.trans hc hgrows.placed)
        rcases hc with hc | hc
        · exact hold (.inl hc)
        · rcases hgrows.new c hc with hc | hc | hc
          · exact hold (.inr hc)
          · exact hold (.inl hc)
          · exact .inl hc
      · have := hgrows.cost
        rw [hwork, length_cons] at hfuel
        simp only at this
        omega

/-! ### All registers -/

/-- Phis for one more register, on the iterated frontier of its definitions. -/
theorem Placed.placeRegister (h : Placed f regs g phis heads) (ht : t.Sound f) (hfits : Fits f t)
    (hr : regs[i]? = some r) (hlt : r.2.index < f.operands.size) (hnone : ∀ b, ¬heads.Has b i)
    (hdefs : defs.length ≤ f.blocks.size) :
    ∃ heads', Placed f regs (SSA.placeRegister t (g, phis) i r.2 defs).1
        (SSA.placeRegister t (g, phis) i r.2 defs).2 heads' ∧
      (∀ b j, j ≠ i → (heads'.Has b j ↔ heads.Has b j)) ∧
      (∀ b, heads'.Has b i → ∃ x, b ∈ t.frontier x) ∧
      ∀ x, x ∈ defs ∨ heads'.Has x i → ∀ b ∈ t.frontier x, heads'.Has b i := by
  have hbound : ∀ l : List BlockId, l.Nodup → (∀ b ∈ l, ∃ x, b ∈ t.frontier x) →
      l.length ≤ f.blocks.size := by
    intro l hl hmem
    refine (List.Subperm.length_le (hl.subperm fun b hb => ?_)).trans ht.ordered.length
    obtain ⟨x, hx⟩ := hmem b hb
    exact (ht.joins hx).1
  have hcount : g.blockCount = f.blocks.size := h.pools.blocks
  have hstart : Placing f regs i heads heads ⟨g, [], phis, defs.reverse⟩ :=
    ⟨h, fun b => ⟨fun hb => absurd hb (hnone b), fun hb => absurd hb not_mem_nil⟩,
      fun _ _ _ => Iff.rfl, nodup_nil⟩
  obtain ⟨heads', hp, hfrom, hclosed⟩ :=
    hstart.run defs (2 * g.blockCount + 1) hfits hr hlt
      (forall_mem_nil _)
      (fun b hb => .inl (mem_reverse.mpr (hb.resolve_right not_mem_nil))) hbound
      (by simp only [length_reverse]; omega)
  refine ⟨heads', hp.placed, hp.others, fun b hb => hfrom b ((hp.has b).mp hb), ?_⟩
  intro x hx b hb
  rw [hp.has] at hx ⊢
  exact hclosed x hx hb

/-- Every register has its phis on the iterated frontier of its definitions. -/
structure Complete (f : Function) (t : DominatorTree) (regs : List (GuestReg × OperandId))
    (heads : Heads) : Prop where
  joins : ∀ b i, heads.Has b i → ∃ x, b ∈ t.frontier x
  closed : ∀ e ∈ regs.zipIdx, ∀ x, x ∈ definingBlocks f e.1.2 ∨ heads.Has x e.2 →
    ∀ b ∈ t.frontier x, heads.Has b e.2

theorem Complete.eq_nil (h : Complete f t regs heads) {b : BlockId}
    (hnone : ∀ x, b ∉ t.frontier x) : heads b = [] := by
  refine eq_nil_iff_forall_not_mem.mpr fun e he => ?_
  obtain ⟨x, hx⟩ := h.joins b e.2 (mem_map_of_mem he)
  exact hnone x hx

theorem length_definingBlocks (operand : OperandId) :
    (definingBlocks f operand).length ≤ f.blocks.size := by
  refine (length_filter_le _ _).trans ?_
  simp [Function.blockIds]

theorem placePhis_foldl (ht : t.Sound f) (hfits : Fits f t)
    (hlt : ∀ r ∈ regs, r.2.index < f.operands.size) (done : List ((GuestReg × OperandId) × Nat))
    {todo : List ((GuestReg × OperandId) × Nat)} (hregs : regs.zipIdx = done ++ todo)
    (h : Placed f regs g phis heads)
    (hdone : ∀ b i, heads.Has b i → i ∈ done.map Prod.snd ∧ ∃ x, b ∈ t.frontier x)
    (hclosed : ∀ e ∈ done, ∀ x, x ∈ definingBlocks f e.1.2 ∨ heads.Has x e.2 →
      ∀ b ∈ t.frontier x, heads.Has b e.2) {state : Function × List (OpId × Nat)}
    (hstate : state = todo.foldl (fun s e => placeRegister t s e.2 e.1.2 (definingBlocks f e.1.2))
      (g, phis)) :
    ∃ heads', Placed f regs state.1 state.2 heads' ∧ Complete f t regs heads' := by
  induction todo generalizing done g phis heads with
  | nil =>
    rw [append_nil] at hregs
    subst hstate
    exact ⟨heads, h, fun b i hb => (hdone b i hb).2, hregs ▸ hclosed⟩
  | cons e todo ih =>
    have he : e ∈ regs.zipIdx := by
      rw [hregs]
      exact mem_append_right _ (.head _)
    have hnew : e.2 ∉ done.map Prod.snd := by
      have hnodup : (regs.zipIdx.map Prod.snd).Nodup := by
        rw [zipIdx_map_snd]
        exact nodup_range'
      rw [hregs, map_append] at hnodup
      intro hmem
      exact (nodup_append.mp hnodup).2.2 _ hmem _ (.head _) rfl
    obtain ⟨heads₁, h₁, hothers, hfrom, hcl⟩ :=
      h.placeRegister ht hfits (mem_zipIdx_iff_getElem?.mp he)
        (hlt _ (fst_mem_of_mem_zipIdx he)) (fun b hb => hnew (hdone b _ hb).1)
        (length_definingBlocks e.1.2)
    refine ih (done ++ [e]) (by rw [hregs, append_assoc]; rfl) h₁ ?_ ?_ hstate
    · intro b i hb
      rw [map_append, mem_append]
      by_cases hi : i = e.2
      · exact ⟨.inr (by simp [hi]), hfrom b (hi ▸ hb)⟩
      · obtain ⟨hmem, hx⟩ := hdone b i ((hothers b i hi).mp hb)
        exact ⟨.inl hmem, hx⟩
    · intro e' he' x hx b hb
      rcases mem_append.mp he' with he' | he'
      · have hne : e'.2 ≠ e.2 := fun heq => hnew (heq ▸ mem_map_of_mem he')
        rw [hothers _ _ hne] at hx ⊢
        exact hclosed e' he' x hx b hb
      · obtain rfl := mem_singleton.mp he'
        exact hcl x hx b hb

theorem placePhis_complete (hf : f.WellFormed) (ht : t.Sound f) (hfits : Fits f t)
    (hlt : ∀ r ∈ regs, r.2.index < f.operands.size) :
    ∃ heads, Placed f regs (placePhis f t regs).1 (placePhis f t regs).2 heads ∧
      Complete f t regs heads := by
  refine placePhis_foldl ht hfits hlt [] (nil_append _).symm (.refl hf)
    (fun _ => forall_mem_nil _) (forall_mem_nil _) ?_
  rw [placePhis, mapIdx_eq_zipIdx_map, foldl_map]

end Dynarec.IR.SSA
