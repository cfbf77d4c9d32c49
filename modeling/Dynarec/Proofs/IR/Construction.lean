import Dynarec.Proofs.IR.RenamedTree
import Dynarec.Proofs.IR.Unreachable
import Dynarec.Proofs.IR.WriteBack

/-!
# Construction of static single assignment

Renaming, phis and write-back together make a program that corresponds to its source register by
register: the versions that the blocks pass on agree at every edge, and the phis collect what is
dirty.
-/

namespace Dynarec.IR.SSA

open List
open Dynarec.IR.Function (size_computePredecessors)

open Renaming

structure Ready (f : Function) : Prop where
  wf : f.WellFormed
  preds : f.ExactPreds
  entry : 0 < f.blocks.size
  exist : ∀ b c, c ∈ f.program.successors b → c.index < f.blocks.size
  first : f.program.preds Function.entry = []
  few : ∀ b, (f.program.preds b).length ≤ maxSources
  reachable : ∀ b c, c ∈ f.program.preds b → f.program.Reachable c
  phi : ∀ b, ∀ id ∈ f.program.code b, (f.program.stmt id).inst ≠ .phi
  dest : ∀ b, ∀ id ∈ f.program.code b, ∀ d r, (f.program.stmt id).dest = some d →
    f.program.kind d = .register r →
    (f.program.stmt id).inst.hasValue = true ∧
      ∀ field, (f.program.stmt id).inst ≠ .loadContext field
  /-- Unreachable blocks mention no registers. -/
  dead : ∀ b, ¬f.program.Reachable b → ∀ id ∈ f.program.code b, ∀ o,
    o ∈ (f.program.stmt id).sources ∨ (f.program.stmt id).dest = some o →
    ∀ r, f.program.kind o ≠ .register r

namespace Ready

variable {f : Function}

theorem mem_registers (h : Ready f) {r : GuestReg} {o : OperandId} :
    (r, o) ∈ f.registers ↔ o.index < f.operands.size ∧ f.program.kind o = .register r :=
  h.wf.interned.mem_registers r o

theorem registerIndex?_eq_none (h : Ready f) {o : OperandId} (ho : o.index < f.operands.size) :
    registerIndex? f.registers o = none ↔ ∀ r, f.program.kind o ≠ .register r := by
  rw [IR.registerIndex?_eq_none]
  refine forall_congr' fun r => ?_
  rw [h.mem_registers]
  simp [ho]

theorem sync_dest (h : Ready f) {b : BlockId} {id : OpId} (hid : id ∈ f.program.code b)
    (hsync : (f.program.stmt id).inst.synchronizesContext = true) :
    (f.program.stmt id).dest.bind (registerIndex? f.registers) = none := by
  cases hd : (f.program.stmt id).dest with
  | none => rfl
  | some d =>
    rw [Option.bind_some, h.registerIndex?_eq_none (h.wf.dest_lt hid hd)]
    intro r hr
    have hvalue := (h.dest b id hid d r hd hr).1
    revert hsync hvalue
    cases (f.program.stmt id).inst <;> simp [Instruction.synchronizesContext, Instruction.hasValue]

/-- The tree, the phis and the plan that renaming works with. -/
theorem setup (h : Ready f) : ∃ heads,
    Placed f f.registers (placePhis f (.compute f) f.registers).1
      (placePhis f (.compute f) f.registers).2 heads ∧
    Complete f (.compute f) f.registers heads ∧
    Setup f ⟨.compute f, f.registers, (placePhis f (.compute f) f.registers).2⟩ heads := by
  have ht := DominatorTree.sound h.wf h.preds h.entry h.exist
  have hlt : ∀ r ∈ f.registers, r.2.index < f.operands.size := fun r hr =>
    (h.mem_registers.mp hr).1
  have hfits : Fits f (.compute f) := by
    intro x b hb
    refine ⟨?_, h.few b⟩
    cases (ht.ordered.mem b).mp (ht.joins hb).1 with
    | entry => exact h.entry
    | step _ hc => exact h.exist _ _ hc
  obtain ⟨heads, hP, hcomplete⟩ := placePhis_complete h.wf ht hfits hlt
  refine ⟨heads, hP, hcomplete, h.wf, h.preds, ht, h.exist, hlt, hcomplete.eq_nil fun x hx => ?_,
    hP.nodup, h.phi, fun b id hid hsync => h.sync_dest hid hsync⟩
  -- the entry has no predecessors, so it is in no frontier
  have hjoin := (ht.joins hx).2
  rw [show f.predecessors Function.entry = [] from h.first] at hjoin
  cases hjoin

theorem not_entry (h : Ready f) (b : BlockId) : Function.entry ∉ f.program.successors b := by
  intro hmem
  have hpred := (h.preds.mem Function.entry b h.entry).mpr hmem
  rw [h.first] at hpred
  cases hpred

end Ready

/-- How a function corresponds to what becomes of it, when `g` is the renamed function before
write-back. -/
def correspondence (f : Function) (m : Marks) (g t : Function) : Versioning where
  source := f.program
  target := t.program
  regs := f.registers
  bound := f.operands.size
  incoming := m.incoming
  outgoing := m.outgoing
  version := m.version
  dirty := dirty g

section Stage

/-! ### Edges -/

variable {f g t : Function} {plan : Plan} {heads : Heads} {loads : List OpId}
  {init : Nat → OperandId} {m : Marks} {pending : List PendingStore} {stores : OpId → List OpId}
  {b : BlockId} {e : (GuestReg × OperandId) × Nat} {id : OpId} {ids : List OpId}
  {ρ : Nat → OperandId}

variable (hS : Stage f plan heads loads init f.program.Reachable m g pending)

include hS

/-- A block that does not define a register passes its version on. -/
theorem Renaming.Stage.passes (hf : f.WellFormed) (hb : f.program.Reachable b)
    (he : e ∈ plan.registers.zipIdx)
    (hnot : b ∉ definingBlocks f e.1.2) : m.outgoing b e.2 = m.incoming b e.2 := by
  obtain ⟨body, -, hbody⟩ := hS.done b hb
  refine hbody.keeps he fun id hid => ?_
  have hlt := Function.mem_blockIds.mpr (hf.lt_blocks hid)
  have hfilter : ¬((f.blockOperations b).any fun id => defines (f.operation id) e.1.2) :=
    fun hany => hnot (mem_filter.mpr ⟨hlt, hany⟩)
  rw [any_eq_true] at hfilter
  push Not at hfilter
  have hdef := hfilter id hid
  simp only [Bool.not_eq_true, defines, Bool.or_eq_false_iff, beq_eq_false_iff_ne] at hdef
  exact hdef

/-- Where a register has no phi, the version at the end of a predecessor is the one that comes in:
between the parent and the predecessor nothing defines the register, or the block would be in a
frontier. -/
theorem Renaming.Stage.edge (hset : Setup f plan heads)
    (hcomplete : Complete f plan.tree plan.registers heads) {c : BlockId}
    (hb : f.program.Reachable b) (hc : c ∈ f.program.successors b)
    (he : e ∈ plan.registers.zipIdx) (hnot : ¬heads.Has c e.2) (hentry : c ≠ Function.entry) :
    m.incoming c e.2 = m.outgoing b e.2 := by
  have F := hset.tree.immediate.forest
  have hmem := hset.tree.ordered.mem
  have hcr : f.program.Reachable c := .step hb hc
  have hbo := (hmem b).mpr hb
  have hco := (hmem c).mpr hcr
  have hpred : b ∈ f.program.preds c := (hset.preds.mem c b (hset.exist b c hc)).mpr hc
  obtain ⟨p, hp, -⟩ := hset.tree.immediate.nearest c hco hentry
  have hpb := hset.tree.immediate.anc_pred hentry hp hpred hbo
  rw [(hS.chain c p hcr hentry hp).2 e.2 hnot]
  have hwalk : ∀ x, Anc plan.tree.parents.parent? p x → Anc plan.tree.parents.parent? x b →
      m.outgoing x e.2 = m.outgoing p e.2 := by
    intro x hpx
    induction hpx with
    | refl => exact fun _ => rfl
    | @up x z hup hpz ih =>
      intro hxb
      by_cases hxp : x = p
      · rw [hxp]
      · have hxo := F.mem_of_anc hxb hbo
        have hxe : x ≠ Function.entry := by
          rintro rfl
          exact hxp (F.anc_entry.mp (.up hup hpz)).symm
        have hfrontier :=
          (hset.tree.frontier hco hentry hp).mpr ⟨b, hpred, hbo, hxb, .up hup hpz, hxp⟩
        have hxdef : x ∉ definingBlocks f e.1.2 := fun hdef =>
          hnot (hcomplete.closed e he x (.inl hdef) c hfrontier)
        have hxphi : ¬heads.Has x e.2 := fun hhas =>
          hnot (hcomplete.closed e he x (.inr hhas) c hfrontier)
        have hxr := (hmem x).mp hxo
        rw [hS.passes hset.wf hxr he hxdef, (hS.chain x z hxr hxe hup).2 e.2 hxphi]
        exact ih (Anc.trans (.up hup (.refl z)) hxb)
  exact (hwalk b hpb (.refl b)).symm

/-! ### What is left after renaming -/

omit hS in
/-- Phis stand in reachable blocks only. -/
theorem heads_unreachable (hset : Setup f plan heads)
    (hcomplete : Complete f plan.tree plan.registers heads)
    (hb : ¬f.program.Reachable b) : heads b = [] :=
  hcomplete.eq_nil fun _ hx => hb ((hset.tree.ordered.mem b).mp (hset.tree.joins hx).1)

/-- A phi takes the versions from the ends of all predecessors. -/
theorem Renaming.Stage.phi_eq (hr : Ready f) (hb : f.program.Reachable b)
    {e : OpId × Nat} (he : e ∈ heads b) :
    g.program.stmt e.1 = ⟨.phi, some (m.incoming b e.2),
      (f.program.preds b).map (m.outgoing · e.2)⟩ := by
  obtain ⟨hinst, hlen, -⟩ := hS.headed.phi b e he
  have hsources : (g.program.stmt e.1).sources = (f.program.preds b).map (m.outgoing · e.2) := by
    refine ext_getElem? fun k => ?_
    rw [getElem?_map]
    cases hk : (f.program.preds b)[k]? with
    | none =>
      rw [hS.preds] at hlen
      rw [List.getElem?_eq_none_iff] at hk
      exact getElem?_eq_none (hlen ▸ hk)
    | some c => exact hS.source b e he k c hk (hr.reachable b c (mem_of_getElem? hk))
  have hdest := hS.dest b hb e he
  cases hstmt : g.program.stmt e.1 with
  | mk inst dest sources =>
    rw [hstmt] at hinst hsources hdest
    cases hinst
    cases hsources
    cases hdest
    rfl

section

variable (hr : Ready f) (hregs : plan.registers = f.registers) (hset : Setup f plan heads)
  (hcomplete : Complete f plan.tree plan.registers heads)

include hr hregs hset hcomplete

/-- Nothing mentions a register any more. -/
theorem Renaming.Stage.settled (hid : id ∈ g.program.code b) {o : OperandId}
    (ho : o ∈ (g.program.stmt id).sources ∨ (g.program.stmt id).dest = some o) :
    Settled plan.registers m.version o := by
  by_cases hb : f.program.Reachable b
  · obtain ⟨body, hcode, hbody⟩ := hS.done b hb
    rw [hcode, mem_append, mem_append] at hid
    rcases hid with hid | hid | hid
    · obtain ⟨e, he, rfl⟩ := mem_map.mp hid
      have hmem := getElem_mem_zipIdx (hS.headed.phi b e he).2.2.2
      rw [hS.phi_eq hr hb he] at ho
      rcases ho with ho | ho
      · obtain ⟨c, hc, rfl⟩ := mem_map.mp ho
        exact .inl ⟨_, hS.outgoing c (hr.reachable b c hc) _ hmem⟩
      · cases ho
        exact .inl ⟨_, hS.incoming b hb _ hmem⟩
    · obtain ⟨e, he, heq⟩ := exists_of_forall₂ hS.initial.1 (mem_of_lead hid)
      rw [heq] at ho
      rcases ho with ho | ho
      · cases ho
      · cases ho
        exact .inl ⟨_, hS.initial.2 e he⟩
    · refine hbody.settled (hS.incoming b hb) (hset.sync b) ?_ hid ho
      rintro ρ x stores ⟨rfl, -⟩
      rfl
  · obtain ⟨hcode, hold⟩ := hS.todo b hb
    have hlead : lead loads b = [] := if_neg fun heq : b = Function.entry =>
      hb (heq ▸ .entry)
    rw [hcode, heads_unreachable hset hcomplete hb, hlead] at hid
    have hid' : id ∈ f.program.code b := hid
    rw [hold id hid'] at ho
    right
    rw [hregs, hr.registerIndex?_eq_none (hr.wf.operand_lt hid' ho)]
    exact hr.dead b hb id hid' o ho

theorem Renaming.Stage.leftover_none : leftover? g f.registers = none := by
  have hnone : ∀ r o, (r, o) ∈ f.registers → ¬Settled plan.registers m.version o := by
    rintro r o hmem (⟨i, hi⟩ | hi)
    · have hlt := (hr.mem_registers.mp hmem).1
      exact absurd hlt (hS.known.fresh i o hi).1.not_gt
    · rw [hregs] at hi
      exact IR.registerIndex?_eq_none.mp hi r hmem
  rw [leftover?, Option.map_eq_none_iff, find?_eq_none]
  rintro ⟨r, o⟩ hmem
  have hgone : ∀ {id}, (g.operation id).live = true →
      ¬(o ∈ (g.program.stmt id).sources ∨ (g.program.stmt id).dest = some o) := fun hlive ho =>
    hnone r o hmem (hS.settled hr hregs hset hcomplete (hS.wf.mem_code_iff.mpr ⟨hlive, rfl⟩) ho)
  have huses : (g.operand o).uses = [] := by
    refine eq_nil_iff_forall_not_mem.mpr fun id hid => ?_
    obtain ⟨hlive, hsource⟩ := (hS.wf.tracked.uses o id).mp hid
    exact hgone hlive (.inl hsource)
  have hdefs : (g.operand o).defs = [] := by
    refine eq_nil_iff_forall_not_mem.mpr fun id hid => ?_
    obtain ⟨hlive, hdest⟩ := (hS.wf.tracked.defs o id).mp hid
    exact hgone hlive (.inr hdest)
  simp [huses, hdefs]

end

/-- What is noted belongs to operations of the source that leave or synchronize, and stores
versions. -/
theorem Renaming.Stage.noted_spec {s : PendingStore} (hs : s ∈ pending) :
    (∃ b, s.anchor ∈ g.program.code b) ∧ ((g.program.stmt s.anchor).inst.synchronizesContext ||
      (g.program.stmt s.anchor).inst.leavesFunction) = true ∧ s.value.index < g.operands.size := by
  obtain ⟨b, hb, hanchor⟩ := hS.noted s hs
  obtain ⟨body, hcode, hbody⟩ := hS.done b hb
  obtain ⟨ρ, ρ', stores, loads, ⟨-, hfilter⟩, hversion, hrenames, hmem⟩ :=
    hbody.point (hS.incoming b hb) hanchor
  have hinst := hrenames.inst_eq
  have hreq : s ∈ required plan ρ (f.program.stmt s.anchor).inst s.anchor := by
    rw [← hfilter]
    exact mem_filter.mpr ⟨hs, by simp⟩
  refine ⟨⟨b, ?_⟩, ?_⟩
  · rw [hcode]
    exact mem_append_right _ (mem_append_right _ hmem)
  · rw [hinst]
    unfold required at hreq
    split at hreq
    · next hlooks =>
      refine ⟨hlooks, ?_⟩
      obtain ⟨i, hi, heq⟩ := mem_mapIdx.mp hreq
      have hvalue : s.value = ρ i := by rw [← heq]
      rw [hvalue]
      exact (hS.known.fresh _ _ (hversion _ (getElem_mem_zipIdx hi))).2.1
    · cases hreq

/-! ### The two programs -/

variable (ht : Stored g t stores (pending.filter fun p => dirty g p.value))

include ht

/-- Operations that the host does not look at have no stores before them. -/
theorem Stored.nil_of_not_looks
    (hid : ((g.program.stmt id).inst.synchronizesContext ||
      (g.program.stmt id).inst.leavesFunction) = false) : stores id = [] := by
  refine ht.nil fun s hs hanchor => ?_
  have hlooks := (hS.noted_spec (mem_of_mem_filter hs)).2.1
  rw [hanchor, hid] at hlooks
  cases hlooks

variable (hregs : plan.registers = f.registers)

include hregs

omit hS in
/-- Before an operation stand the stores of the dirty registers. -/
theorem Stored.stores_of_noted (hnoted : Noted plan f.program pending ρ id []) :
    (correspondence f m g t).Stores ρ id (stores id) := by
  have hfilter : ((pending.filter fun p => dirty g p.value).filter fun p => p.anchor = id) =
      (required plan ρ (f.program.stmt id).inst id).filter fun p => dirty g p.value := by
    rw [filter_filter, ← hnoted.2, filter_filter]
    exact filter_congr fun p _ => Bool.and_comm _ _
  have hforall := ht.stores id
  rw [hfilter] at hforall
  unfold required at hforall
  change List.Forall₂ _ _ (if (f.program.stmt id).inst.synchronizesContext ||
    (f.program.stmt id).inst.leavesFunction then
      f.registers.zipIdx.filter fun e => dirty g (ρ e.2) else [])
  split at hforall
  · next hlooks =>
    rw [if_pos hlooks, ← hregs]
    rw [mapIdx_eq_zipIdx_map, filter_map, forall₂_map_right_iff] at hforall
    exact hforall
  · next hlooks =>
    rw [if_neg hlooks]
    rw [filter_nil, forall₂_nil_right_iff] at hforall
    rw [hforall]
    exact .nil

/-- The stores of write-back turn a renamed body into the final one. -/
theorem Stored.body {ρ' : Nat → OperandId} {ids' : List OpId}
    (hbody : Body plan.registers m.version f.program g.program (Noted plan f.program pending) ρ
      ids ids' ρ') (hlt : ∀ x ∈ ids', x.index < g.operations.size) :
    Body f.registers m.version f.program t.program (correspondence f m g t).Stores ρ ids
      (ids'.flatMap fun id => stores id ++ [id]) ρ' := by
  induction hbody with
  | nil ρ => exact .nil ρ
  | @cons ρ ρ₁ ρ₂ id stores' loads' ids ids' hnoted hrenames hrest ih =>
    obtain rfl : stores' = [] := hnoted.1
    have hloads : (loads'.flatMap fun id => stores id ++ [id]) = loads' := by
      refine flatMap_stores fun x hx => ht.nil_of_not_looks hS ?_
      obtain ⟨r, hr⟩ := hrenames.load_eq hx
      rw [hr]
      rfl
    have hflat : (([] ++ id :: (loads' ++ ids')).flatMap fun id => stores id ++ [id]) =
        stores id ++ id :: (loads' ++ ids'.flatMap fun id => stores id ++ [id]) := by
      rw [nil_append, flatMap_cons, flatMap_append, hloads, append_assoc]
      rfl
    rw [hflat]
    refine .cons (ht.stores_of_noted hregs hnoted) ?_ (ih fun x hx => hlt x (by simp [hx]))
    rw [← hregs]
    exact hrenames.mono (fun _ _ hv => hv) (ht.old id (hlt id (by simp)))
      fun x hx => ht.old x (hlt x (by simp [hx]))

/-- The operations of a reachable block in the end. -/
theorem Stored.block (hr : Ready f) (hb : f.program.Reachable b) :
    ∃ body, (correspondence f m g t).Block b ((heads b).map Prod.fst) (lead loads b) body := by
  obtain ⟨body, hcode, hbody⟩ := hS.done b hb
  have hlt : ∀ x ∈ g.program.code b, x.index < g.operations.size := fun x hx =>
    hS.wf.lt_operations hx
  have hheads : ∀ x ∈ (heads b).map Prod.fst, ∃ e ∈ f.registers.zipIdx,
      g.program.stmt x =
        ⟨.phi, some (m.incoming b e.2), (f.program.preds b).map (m.outgoing · e.2)⟩ := by
    intro x hx
    obtain ⟨e, he, rfl⟩ := mem_map.mp hx
    have hi := (hS.headed.phi b e he).2.2.2
    rw [hregs] at hi
    exact ⟨_, getElem_mem_zipIdx hi, hS.phi_eq hr hb he⟩
  refine ⟨body.flatMap fun id => stores id ++ [id], ?_, fun x hx => ?_, ?_,
    ht.body hS hregs hbody fun x hx => hlt x ?_⟩
  · change t.program.code b = _
    rw [ht.code, hcode, flatMap_append, flatMap_append, flatMap_stores, flatMap_stores]
    · intro x hx
      obtain ⟨reg, hreg⟩ := hS.lead_eq hx
      refine ht.nil_of_not_looks hS ?_
      rw [hreg]
      rfl
    · intro x hx
      obtain ⟨e, -, heq⟩ := hheads x hx
      refine ht.nil_of_not_looks hS ?_
      rw [heq]
      rfl
  · obtain ⟨e, he, heq⟩ := hheads x hx
    refine ⟨e, he, ?_⟩
    change t.program.stmt x = ⟨.phi, some (m.incoming b e.2), (t.program.preds b).map _⟩
    rw [ht.old x (hlt x (hcode ▸ mem_append_left _ hx)), heq]
    have hpreds : t.program.preds b = f.program.preds b := by
      rw [← hS.preds]
      exact ht.pools.predecessors b
    rw [hpreds]
    rfl
  · split
    · next hentry =>
      subst hentry
      change Loads f.registers m.version t.program (m.incoming Function.entry) _
      rw [hS.entry hb, ← hregs]
      refine hS.initial.mono (fun _ _ hv => hv) fun x hx => ht.old x (hlt x ?_)
      rw [hcode]
      exact mem_append_right _ (mem_append_left _ hx)
    · next hentry => exact if_neg hentry
  · rw [hcode]
    exact mem_append_right _ (mem_append_right _ hx)

section

variable (hr : Ready f) (hset : Setup f plan heads)

include hr hset

/-- A version that an operation of the source computes is dirty. -/
theorem Stored.dirty_dest (hb : f.program.Reachable b) (hid : id ∈ f.program.code b) {i : Nat}
    {v : OperandId} (hi : (f.program.stmt id).dest.bind (registerIndex? f.registers) = some i)
    (hv : (t.program.stmt id).dest = some v) : dirty g v = true := by
  obtain ⟨body, hcode, hbody⟩ := hS.done b hb
  obtain ⟨ρ, ρ', stores', loads', -, -, hrenames, hmem⟩ := hbody.point (hS.incoming b hb) hid
  have hgid : id ∈ g.program.code b := by
    rw [hcode]
    exact mem_append_right _ (mem_append_right _ hmem)
  obtain ⟨w, hw, hversion⟩ := hrenames.dest (hset.sync b id hid) (hregs ▸ hi)
  rw [ht.old id (hS.wf.lt_operations hgid), hw] at hv
  obtain rfl := Option.some.inj hv
  obtain ⟨-, -, k, hk⟩ := hS.known.fresh i w hversion
  refine dirty_of_def hS.wf hgid hw hk ?_
  obtain ⟨d, hd, hdi⟩ := Option.bind_eq_some_iff.mp hi
  obtain ⟨r, hreg⟩ := mem_of_registerIndex? hdi
  obtain ⟨hvalue, hload⟩ := hr.dest b id hid d r hd
    (hr.mem_registers.mp (fst_mem_of_mem_zipIdx hreg)).2
  have hinst : (g.operation id).inst = (f.program.stmt id).inst := hrenames.inst_eq
  rw [dirties, hinst]
  split
  · next field heq => exact absurd heq (hload field)
  · next heq =>
    rw [heq] at hvalue
    cases hvalue
  · rfl

variable (hcomplete : Complete f plan.tree plan.registers heads) {c : BlockId}
  (hb : f.program.Reachable b) (hc : c ∈ f.program.successors b) (he : e ∈ f.registers.zipIdx)

include hcomplete hb hc he

omit ht in
/-- Where control may go, a register has a phi or keeps its version. -/
theorem Renaming.Stage.phi_or_keep : (∃ id ∈ g.program.code c, g.program.stmt id =
      ⟨.phi, some (m.incoming c e.2), (f.program.preds c).map (m.outgoing · e.2)⟩) ∨
    m.incoming c e.2 = m.outgoing b e.2 := by
  by_cases hhas : heads.Has c e.2
  · obtain ⟨x, hx, heq⟩ := mem_map.mp hhas
    exact .inl ⟨x.1, hS.headed.mem_code hx, heq ▸ hS.phi_eq hr (.step hb hc) hx⟩
  · refine .inr (hS.edge hset hcomplete hb hc (hregs ▸ he) hhas ?_)
    rintro rfl
    exact hr.not_entry b hc

omit ht in
/-- A phi is dirty if a version that reaches it is. -/
theorem Renaming.Stage.dirty_incoming (hdirty : dirty g (m.outgoing b e.2) = true) :
    dirty g (m.incoming c e.2) = true := by
  rcases hS.phi_or_keep hregs hr hset hcomplete hb hc he with ⟨id, hid, hstmt⟩ | hkeep
  · obtain ⟨-, -, k, hk⟩ := hS.known.fresh _ _ (hS.incoming c (.step hb hc) e (hregs ▸ he))
    refine dirty_of_phi hS.wf hid (by rw [hstmt]) (by rw [hstmt]) hk ?_ hdirty
    rw [hstmt]
    exact mem_map_of_mem ((hr.preds.mem c b (hr.exist b c hc)).mpr hc)
  · rwa [hkeep]

end

/-- Renaming and write-back make a corresponding program. -/
theorem Stored.sound (hr : Ready f) (hset : Setup f plan heads)
    (hcomplete : Complete f plan.tree plan.registers heads) :
    (correspondence f m g t).Sound f.program.Reachable := by
  have hpreds : t.program.preds = f.program.preds := by
    rw [← hS.preds]
    exact funext ht.pools.predecessors
  have hkept := hS.known.toOperandsKept.trans ht.pools.operandsKept
  refine ⟨hkept.kind, hkept.ty, ?_, hS.known.version_inj, ?_,
    fun b hb e he => hS.incoming b hb e (hregs ▸ he),
    fun b hb e he => hS.outgoing b hb e (hregs ▸ he), ?_, .entry, fun b _ => hr.not_entry b, ?_,
    fun b c hb hc e he => hS.dirty_incoming hregs hr hset hcomplete hb hc he,
    fun b hb id hid i v => ht.dirty_dest hS hregs hr hset hb hid,
    fun b _ id hid => ⟨fun o => hr.wf.source_lt hid, fun o => hr.wf.dest_lt hid⟩⟩
  · intro i v hv
    obtain ⟨hle, -, k, hk⟩ := hS.known.fresh i v hv
    exact ⟨hle, k, (ht.pools.kind v).trans hk⟩
  · intro e he v hv
    exact (ht.pools.ty v).trans (hS.known.version_ty e (hregs ▸ he) v hv)
  · intro b hb
    obtain ⟨body, hblock⟩ := ht.block hS hregs hr hb
    exact ⟨_, _, _, hblock⟩
  · intro b c hb hc
    refine ⟨.step hb hc, ?_, fun e he => ?_⟩
    · change b ∈ t.program.preds c
      rw [hpreds]
      exact (hr.preds.mem c b (hr.exist b c hc)).mpr hc
    · refine (hS.phi_or_keep hregs hr hset hcomplete hb hc he).imp_left ?_
      rintro ⟨id, hid, hstmt⟩
      refine ⟨id, ?_, ?_⟩
      · change id ∈ t.program.code c
        rw [ht.code]
        exact mem_flatMap.mpr ⟨id, hid, by simp⟩
      · change t.program.stmt id = ⟨.phi, some (m.incoming c e.2), (t.program.preds c).map _⟩
        rw [ht.old id (hS.wf.lt_operations hid), hstmt, hpreds]
        rfl

end Stage

/-! ### Renaming as a whole -/

/-- How `t` came out of `f`: where the phis went, which versions the registers have at the ends of
the blocks, and which stores were added in the end. -/
structure Renamed (f t : Function) where
  plan : Plan
  heads : Heads
  loads : List OpId
  init : Nat → OperandId
  marks : Marks
  withPhis : Function
  bare : Function
  pending : List PendingStore
  stores : OpId → List OpId
  registers : plan.registers = f.registers
  setup : Setup f plan heads
  complete : Complete f plan.tree plan.registers heads
  placed : Placed f plan.registers withPhis plan.phis heads
  stage : Stage f plan heads loads init f.program.Reachable marks bare pending
  dests : FreshDests withPhis bare
  stored : Stored bare t stores (pending.filter fun p => dirty bare p.value)

/-- Renaming succeeds. -/
theorem Ready.rename {f : Function} (h : Ready f) :
    (rename f).1 = .ok () ∧ Nonempty (Renamed f (rename f).2) := by
  obtain ⟨heads, hP, hcomplete, hset⟩ := h.setup
  obtain ⟨m, loads, init, hS, hdests⟩ := renameBlock_stage hset hP h.entry rfl rfl
  have hleft := hS.leftover_none h rfl hset hcomplete
  have hnoted := fun s hs => hS.noted_spec (s := s) hs
  obtain ⟨stores, hstored⟩ := (Stored.refl hS.wf).foldl_storeDirty hS.wf
    (fun s hs => (hnoted s hs).1) fun s hs => (hnoted s hs).2.2
  unfold SSA.rename
  dsimp only at hleft hstored ⊢
  rw [hleft]
  exact ⟨rfl, ⟨_, heads, loads, init, m, _, _, _, stores, rfl, hset, hcomplete, hP, hS, hdests,
    hstored⟩⟩

theorem Renamed.sound {f t : Function} (h : Ready f) (R : Renamed f t) :
    (correspondence f R.marks R.bare t).Sound f.program.Reachable :=
  R.stored.sound R.stage R.registers h R.setup R.complete

/-! ### Construction as a whole -/

/-- What construction expects of a function that still mentions registers. -/
structure Constructible (f : Function) : Prop where
  wf : f.WellFormed
  entry : 0 < f.blocks.size
  first : ∀ b, Function.entry ∉ f.program.successors b
  exist : ∀ b c, c ∈ f.program.successors b → c.index < f.blocks.size
  few : ∀ b, (f.computePredecessors.predecessors b).length ≤ maxSources
  terminated : ∀ b, b.index < f.blocks.size → f.program.Terminated (f.program.code b)
  admissible : ∀ b, ∀ id ∈ f.program.code b, f.program.Admissible (f.program.stmt id)
  valid : ∀ e ∈ f.registers, e.1.Valid
  /-- The type of a register has no bits that its field has not. -/
  width : ∀ e ∈ f.registers, (f.program.ty e.2).mask &&& e.1.width = (f.program.ty e.2).mask

def trimmed (f : Function) : Function :=
  (cutUnreachable f.computePredecessors).computePredecessors

namespace Constructible

variable {f : Function} {b : BlockId} {o : OperandId} {id : OpId}

theorem lt_of_reachable (h : Constructible f) (hb : f.program.Reachable b) :
    b.index < f.blocks.size := by
  cases hb with
  | entry => exact h.entry
  | step _ hc => exact h.exist _ _ hc

theorem alike_computePredecessors (h : f.WellFormed) :
    f.program.Alike f.computePredecessors.program where
  code b _ := congrFun h.code_computePredecessors b
  stmt _ _ _ _ := rfl
  operand _ _ _ _ _ _ := ⟨rfl, rfl⟩

section

variable (h : Constructible f)

include h

theorem cut : Cut f.computePredecessors (cutUnreachable f.computePredecessors) := by
  refine cutUnreachable_cut h.wf.computePredecessors
    (h.wf.computePredecessors.ordered ?_ fun b c hc => ?_)
  · rw [size_computePredecessors]
    exact h.entry
  · rw [size_computePredecessors]
    exact h.exist b c (h.wf.successors_computePredecessors b ▸ hc)

theorem wf_trimmed : (trimmed f).WellFormed :=
  h.cut.wf.computePredecessors

theorem size_trimmed : (trimmed f).blocks.size = f.blocks.size := by
  rw [trimmed, size_computePredecessors, h.cut.blocks, size_computePredecessors]

theorem code_trimmed :
    (trimmed f).program.code = (cutUnreachable f.computePredecessors).program.code :=
  h.cut.wf.code_computePredecessors

theorem reachable_computePredecessors :
    f.computePredecessors.program.Reachable b ↔ f.program.Reachable b :=
  (alike_computePredecessors h.wf).reachable

theorem alike_trimmed : f.program.Alike (trimmed f).program where
  code b hb := by
    rw [h.code_trimmed, h.cut.code b (h.reachable_computePredecessors.mpr hb),
      h.wf.code_computePredecessors]
  stmt b hb id hid := by
    refine h.cut.stmt b (h.reachable_computePredecessors.mpr hb) id ?_
    rwa [h.wf.code_computePredecessors]
  operand b hb id hid o ho := by
    have hlt := h.wf.operand_lt hid ho
    exact ⟨h.cut.kind o hlt, h.cut.ty o hlt⟩

/-- An operation of the trimmed function is one of a reachable block, or leaves the function. -/
theorem mem_trimmed (hid : id ∈ (trimmed f).program.code b) :
    (f.program.Reachable b ∧ id ∈ f.program.code b) ∨
      ¬f.program.Reachable b ∧ (trimmed f).program.code b = [id] ∧ ∃ pc v,
        (trimmed f).program.stmt id = ⟨.exit, none, [pc]⟩ ∧
          (trimmed f).program.kind pc = .constant v := by
  by_cases hb : f.program.Reachable b
  · rw [h.alike_trimmed.code b hb] at hid
    exact .inl ⟨hb, hid⟩
  · have hlt : b.index < f.computePredecessors.blocks.size := by
      rw [size_computePredecessors, ← h.size_trimmed]
      exact h.wf_trimmed.lt_blocks hid
    obtain ⟨x, pc, hcode, hstmt, v, hv⟩ := h.cut.dead b hlt
      fun hr => hb (h.reachable_computePredecessors.mp hr)
    rw [← h.code_trimmed] at hcode
    rw [hcode, mem_singleton] at hid
    subst hid
    exact .inr ⟨hb, hcode, pc, v, hstmt, hv⟩

/-- Edges of the trimmed function leave reachable blocks. -/
theorem successors_trimmed {c : BlockId} (hc : c ∈ (trimmed f).program.successors b) :
    f.program.Reachable b ∧ c ∈ f.program.successors b := by
  have hmem := hc
  unfold Program.successors at hmem
  split at hmem
  · next id hlast =>
    rcases h.mem_trimmed (mem_of_getLast? hlast) with ⟨hb, -⟩ | ⟨-, -, pc, v, hstmt, -⟩
    · exact ⟨hb, h.alike_trimmed.successors hb ▸ hc⟩
    · rw [hstmt] at hmem
      cases hmem
  · cases hmem

theorem mem_preds_trimmed {c : BlockId} (hc : c ∈ (trimmed f).program.preds b) :
    f.program.Reachable c ∧ b ∈ f.program.successors c :=
  h.successors_trimmed (h.cut.wf.successors_computePredecessors c ▸ (h.cut.wf.mem_preds.mp hc).2)

theorem admissible_trimmed (hid : id ∈ (trimmed f).program.code b) :
    (trimmed f).program.Admissible ((trimmed f).program.stmt id) := by
  rcases h.mem_trimmed hid with ⟨hb, hid⟩ | ⟨-, -, pc, v, hstmt, -⟩
  · rw [h.alike_trimmed.stmt b hb id hid]
    exact (h.admissible b id hid).congr (h.alike_trimmed.operand b hb id hid)
  · rw [hstmt]
    exact ⟨by simp, by simp, by simp, by simp, by simp⟩

theorem length_preds_trimmed (b : BlockId) :
    ((trimmed f).program.preds b).length ≤ (f.computePredecessors.predecessors b).length := by
  refine (h.cut.wf.exactPreds.nodup b).length_le_of_subset fun c hc => ?_
  have hsucc := (h.mem_preds_trimmed hc).2
  exact h.wf.mem_preds.mpr ⟨h.exist c b hsucc, hsucc⟩

theorem ready : Ready (trimmed f) := by
  refine ⟨h.wf_trimmed, h.cut.wf.exactPreds, h.size_trimmed ▸ h.entry, fun b c hc => ?_,
    eq_nil_iff_forall_not_mem.mpr fun c hc => h.first c (h.mem_preds_trimmed hc).2,
    fun b => (h.length_preds_trimmed b).trans (h.few b),
    fun b c hc => h.alike_trimmed.reachable.mpr (h.mem_preds_trimmed hc).1,
    fun b id hid => (h.admissible_trimmed hid).not_phi,
    fun b id hid => (h.admissible_trimmed hid).dest, fun b hb id hid o ho r => ?_⟩
  · rw [h.size_trimmed]
    exact h.exist b c (h.successors_trimmed hc).2
  · rw [h.alike_trimmed.reachable] at hb
    rcases h.mem_trimmed hid with ⟨hr, -⟩ | ⟨-, -, pc, v, hstmt, hv⟩
    · exact absurd hr hb
    · rw [hstmt] at ho
      rcases ho with ho | ho
      · rw [mem_singleton.mp ho, hv]
        exact OperandKind.noConfusion
      · cases ho

/-- Construction renames what is left of the function after trimming. -/
theorem construct_eq : construct f = SSA.rename (trimmed f) := by
  have hentry : f.computePredecessors.predecessors Function.entry = [] := by
    exact eq_nil_iff_forall_not_mem.mpr fun c hc => h.first c (h.wf.mem_preds.mp hc).2
  have hfind : ((trimmed f).blockIds.find? fun b =>
      maxSources < ((trimmed f).predecessors b).length) = none := by
    rw [find?_eq_none]
    intro b _ hb
    exact absurd ((h.length_preds_trimmed b).trans (h.few b)) (of_decide_eq_true hb).not_ge
  unfold construct
  dsimp only
  rw [hentry]
  rw [trimmed] at hfind
  rw [hfind]
  rfl

theorem renamed : Nonempty (Renamed (trimmed f) (construct f).2) := by
  rw [h.construct_eq]
  exact h.ready.rename.2

end

end Constructible

/-! ### What construction preserves -/

namespace Constructible

variable {f : Function}

section

variable (h : Constructible f) {tys : GuestReg → Ty}
  (htys : ∀ e ∈ f.registers, f.program.ty e.2 = tys e.1)

include h htys

theorem admits {t : Function} (m : Marks) (g : Function) :
    (correspondence (trimmed f) m g t).Admits (fun r => (tys r).mask)
      (trimmed f).program.Reachable := by
  have hregs : (trimmed f).registers = f.registers := h.cut.registers
  have hty : ∀ e ∈ f.registers, (trimmed f).program.ty e.2 = f.program.ty e.2 := fun e he =>
    h.cut.ty _ ((h.wf.interned.mem_registers e.1 e.2).mp he).1
  have hinterned := h.wf_trimmed.interned
  refine ⟨?_, hinterned.nodup_registers, ?_, ?_, ?_, ?_, ?_, ?_⟩
  · intro o r ho
    rw [show (correspondence (trimmed f) m g t).regs = (trimmed f).registers from rfl,
      hinterned.mem_registers]
    exact ⟨fun hk => ⟨ho, hk⟩, fun hk => hk.2⟩
  · intro e he
    exact h.valid e (hregs ▸ he)
  · intro e he
    change ((trimmed f).program.ty e.2).mask &&& _ = ((trimmed f).program.ty e.2).mask
    rw [hty e (hregs ▸ he)]
    exact h.width e (hregs ▸ he)
  · intro e he c
    have hmem : e ∈ f.registers := hregs ▸ he
    change _ = _ &&& ((trimmed f).program.ty e.2).mask
    rw [hty e hmem, htys e hmem]
  · intro o v ho hk
    exact hinterned.constant_fits o v ho hk
  · exact fun b _ id hid => h.admissible_trimmed hid
  · intro b hb
    have hr := h.alike_trimmed.reachable.mp hb
    exact h.alike_trimmed.terminated hr (h.terminated b (h.lt_of_reachable hr))

/-- After construction the context is as before wherever the host looks at it, in the bits of types
that the registers have. -/
theorem construct_run_of (E : Environment) (c : Context) (n : Nat) :
    SameOutcome tys (f.program.run (E.host (Event.visible tys)) ⟨c, []⟩ n)
      ((construct f).2.program.run (E.host (Event.visible tys)) ⟨c, []⟩ n) := by
  obtain ⟨R⟩ := h.renamed
  have hclose : Trace.Close tys ⟨c, []⟩ ⟨c, []⟩ := ⟨rfl, rfl⟩
  have hmatch := (R.sound h.ready).run_matches (h.admits htys R.marks R.bare)
    (E.registerBlind tys) hclose (fun _ _ => rfl) n
  have hsource : (trimmed f).program.run (E.host (Event.visible tys)) ⟨c, []⟩ n =
      f.program.run (E.host (Event.visible tys)) ⟨c, []⟩ n :=
    h.alike_trimmed.run_eq (fun b hb => h.terminated b (h.lt_of_reachable hb))
      (fun b _ => .inr fun id hid => (h.admissible b id hid).not_phi) _ n
  rw [← hsource]
  change Versioning.Matches _ _ _ _ _ ((trimmed f).program.run _ _ n)
    ((construct f).2.program.run _ _ n) at hmatch
  generalize (trimmed f).program.run _ _ n = out at hmatch ⊢
  generalize (construct f).2.program.run _ _ n = out' at hmatch ⊢
  cases hmatch with
  | start hclose _ => exact .running hclose.events
  | running _ _ hrel => exact .running hrel.close.events
  | left hclose hagree => exact .left hclose.events (Context.narrow_eq hclose.context hagree)

end

/-- The same with the types that registers have in the function. -/
theorem construct_run (h : Constructible f) (E : Environment) (c : Context) (n : Nat) :
    SameOutcome f.registerTy (f.program.run (E.host (Event.visible f.registerTy)) ⟨c, []⟩ n)
      ((construct f).2.program.run (E.host (Event.visible f.registerTy)) ⟨c, []⟩ n) :=
  h.construct_run_of (fun _ he => (h.wf.registerTy he).symm) E c n

end Constructible

end Dynarec.IR.SSA
