import Dynarec.Proofs.IR.Renaming

/-!
# Renaming along the dominator tree

Blocks are renamed from the entry down the dominator tree. A stage says which blocks have been
visited, which versions the registers have at their ends, and that the rest is still as it was. A
visit leads from one stage to the next, and the recursion visits a whole subtree.
-/

open Function (update update_of_ne update_self)

namespace Dynarec.IR

open List Program
open Dynarec.IR.Function (entry)

/-! ### Successors of renamed blocks -/

section Successors

variable {regs : List (GuestReg × OperandId)} {version : Nat → OperandId → Prop} {p q : Program}
  {Before : (Nat → OperandId) → OpId → List OpId → Prop} {ρ ρ' : Nat → OperandId}
  {ids ids' : List OpId}

def Program.continues (p : Program) (ids : List OpId) : List BlockId :=
  match ids.getLast? with
  | some id => (p.stmt id).inst.targets
  | none => []

theorem Program.continues_append (p : Program) (front : List OpId)
    (hfront : ∀ x ∈ front, (p.stmt x).inst.targets = []) (ids : List OpId) :
    p.continues (front ++ ids) = p.continues ids := by
  unfold continues
  cases hlast : ids.getLast? with
  | some id => rw [getLast?_append, hlast, Option.some_or]
  | none =>
    rw [getLast?_eq_none_iff] at hlast
    rw [hlast, append_nil]
    split
    · next id hid => exact hfront id (mem_of_getLast? hid)
    · rfl

theorem Program.continues_cons (p : Program) (id : OpId) (hne : ids ≠ []) :
    p.continues (id :: ids) = p.continues ids := by
  rw [continues, getLast?_cons_of_ne_nil hne]
  rfl

theorem Body.continues_eq (hbody : Body regs version p q Before ρ ids ids' ρ')
    (hbefore : ∀ ρ id stores, Before ρ id stores → ∀ x ∈ stores, (q.stmt x).inst.targets = []) :
    q.continues ids' = p.continues ids := by
  induction hbody with
  | nil ρ => rfl
  | @cons ρ ρ₁ ρ₂ id stores loads ids ids' hstores hrenames hrest ih =>
    rw [q.continues_append stores (hbefore _ _ _ hstores)]
    cases hrenames with
    | plain _ _ hstmt =>
      cases hrest with
      | nil => simp [continues, hstmt]
      | cons =>
        rw [nil_append, q.continues_cons id (by simp), ih]
        exact (p.continues_cons id (by simp)).symm
    | sync hsync hloads hstmt =>
      have htargets := Instruction.targets_of_not_terminator
        (Instruction.isTerminator_of_synchronizes hsync)
      have hskip := p.continues_append [id] (by simpa using htargets) ids
      rw [← cons_append, q.continues_append, ih, ← hskip]
      · rfl
      intro x hx
      rcases mem_cons.mp hx with rfl | hx
      · rw [hstmt, htargets]
      · obtain ⟨r, hr⟩ := hloads.inst_eq hx
        rw [hr]
        rfl

end Successors

namespace SSA.Renaming

structure Marks where
  incoming : BlockId → Nat → OperandId
  outgoing : BlockId → Nat → OperandId
  version : Nat → OperandId → Prop

def Marks.visit (m : Marks) (b : BlockId) (ρ ρ' : Nat → OperandId)
    (version : Nat → OperandId → Prop) : Marks where
  incoming := update m.incoming b ρ
  outgoing := update m.outgoing b ρ'
  version := version

variable {f : Function} {plan : Plan} {heads : Heads} {loads : List OpId}
  {init : Nat → OperandId} {visited : BlockId → Prop} {m : Marks} {b : BlockId}
  {version : Nat → OperandId → Prop} {ρ : Nat → OperandId} {r r₁ r₂ : Renaming} {g : Function}
  {pending : List PendingStore} {x : OpId} {order : List BlockId} {up : BlockId → Option BlockId}
  {s : Function × List OperandId}

section

variable (f plan heads loads init visited m b version ρ r r₁ r₂ g pending)

/-- What renaming starts from: `f` with phis at the head of blocks and loads at the entry. -/
structure Setup : Prop where
  wf : f.WellFormed
  preds : f.ExactPreds
  tree : plan.tree.Sound f
  exist : ∀ b c, c ∈ f.program.successors b → c.index < f.blocks.size
  bounded : Bounded f plan
  entry : heads entry = []
  nodup : ∀ b, ((heads b).map Prod.snd).Nodup
  phi : ∀ b, ∀ id ∈ f.program.code b, (f.program.stmt id).inst ≠ .phi
  sync : ∀ b, ∀ id ∈ f.program.code b, (f.program.stmt id).inst.synchronizesContext = true →
    (f.program.stmt id).dest.bind (registerIndex? plan.registers) = none

def lead : List OpId := if b = entry then loads else []

/-- The blocks in `visited` have been renamed, the others have not. -/
structure Stage : Prop where
  wf : g.WellFormed
  known : Known f plan.registers m.version g
  blocks : g.blocks.size = f.blocks.size
  preds : g.program.preds = f.program.preds
  headed : Headed plan heads g
  initial : Loads plan.registers m.version g.program init loads
  done : ∀ b, visited b → ∃ body,
    g.program.code b = (heads b).map Prod.fst ++ (lead loads b ++ body) ∧
    Body plan.registers m.version f.program g.program (Noted plan f.program pending) (m.incoming b)
      (f.program.code b) body (m.outgoing b)
  todo : ∀ b, ¬visited b →
    g.program.code b = (heads b).map Prod.fst ++ (lead loads b ++ f.program.code b) ∧
    ∀ id ∈ f.program.code b, g.program.stmt id = f.program.stmt id
  dest : ∀ b, visited b → ∀ e ∈ heads b, (g.program.stmt e.1).dest = some (m.incoming b e.2)
  source : ∀ b, ∀ e ∈ heads b, ∀ (k : Nat) c, (f.program.preds b)[k]? = some c → visited c →
    (g.program.stmt e.1).sources[k]? = some (m.outgoing c e.2)
  noted : ∀ s ∈ pending, ∃ b, visited b ∧ s.anchor ∈ f.program.code b
  incoming : ∀ b, visited b → ∀ e ∈ plan.registers.zipIdx, m.version e.2 (m.incoming b e.2)
  outgoing : ∀ b, visited b → ∀ e ∈ plan.registers.zipIdx, m.version e.2 (m.outgoing b e.2)
  entry : visited entry → m.incoming entry = init
  /-- Without a phi a register keeps the version from the end of the parent. -/
  chain : ∀ b c, visited b → b ≠ Function.entry → plan.tree.parents.parent? b = some c →
    visited c ∧ ∀ i, ¬heads.Has b i → m.incoming b i = m.outgoing c i

def Arrives : Prop :=
  if b = entry then ρ = init
  else ∃ c, plan.tree.parents.parent? b = some c ∧ visited c ∧ ρ = m.outgoing c

/-- Block `b` has been renamed; behind its phis the versions are `ρ`. -/
structure BlockRenamed : Prop where
  current : Current f plan version r₁
  headed : Headed plan heads r₁.f
  body : ∃ body, r₁.f.program.code b = (heads b).map Prod.fst ++ (lead loads b ++ body) ∧
    Body plan.registers version f.program r₁.f.program (Noted plan f.program r₁.pending) ρ
      (f.program.code b) body r₁.value
  keep : ∀ i, ¬heads.Has b i → ρ i = r.value i
  versions : ∀ e ∈ plan.registers.zipIdx, version e.2 (ρ e.2)
  pending : ∃ new, r₁.pending = r.pending ++ new ∧ ∀ s ∈ new, s.anchor ∈ f.program.code b

structure Visited : Prop extends BlockRenamed f plan heads loads b version ρ r r₁ where
  confined : Confined b (fun x => x ∈ (heads b).map Prod.fst ∨ x ∈ f.program.code b) r.f r₁.f
  phi : ∀ e ∈ heads b, r₁.f.program.stmt e.1 = { r.f.program.stmt e.1 with dest := some (ρ e.2) }

/-- Also the phis of the blocks that follow have their sources from `b`. -/
structure Turned : Prop extends BlockRenamed f plan heads loads b version ρ r r₂ where
  blocks : r₂.f.blocks.size = r.f.blocks.size
  preds : r₂.f.program.preds = r.f.program.preds
  dests : FreshDests r.f r₂.f
  operands : r.f.operands.size ≤ r₂.f.operands.size
  code : ∀ c, c ≠ b → r₂.f.program.code c = r.f.program.code c
  /-- Behind the phis nothing changes but the operations of this block. -/
  behind : ∀ c rest x, r.f.program.code c = (heads c).map Prod.fst ++ rest → x ∈ rest →
    x ∉ f.program.code b → r₂.f.program.stmt x = r.f.program.stmt x
  dest : ∀ e ∈ heads b, (r₂.f.program.stmt e.1).dest = some (ρ e.2)
  dest_other : ∀ c, c ≠ b → ∀ e ∈ heads c,
    (r₂.f.program.stmt e.1).dest = (r.f.program.stmt e.1).dest
  source : ∀ c, ∀ e ∈ heads c, ∀ (k : Nat) d, (f.program.preds c)[k]? = some d →
    (d = b → (r₂.f.program.stmt e.1).sources[k]? = some (r₂.value e.2)) ∧
    (d ≠ b → (r₂.f.program.stmt e.1).sources[k]? = (r.f.program.stmt e.1).sources[k]?)

end

/-- An operation behind the phis of its block is no phi of any block. -/
theorem Headed.not_mem (hh : Headed plan heads g) (h : g.WellFormed) {rest : List OpId}
    (hcode : g.program.code b = (heads b).map Prod.fst ++ rest) (hx : x ∈ rest) (s : BlockId) :
    x ∉ (heads s).map Prod.fst := by
  intro hmem
  obtain ⟨e, he, rfl⟩ := mem_map.mp hmem
  have hb : e.1 ∈ g.program.code b := hcode ▸ mem_append_right _ hx
  obtain rfl := h.block_unique hb (hh.mem_code he)
  exact h.notMem_code hcode hx hmem

theorem mem_of_lead (hx : x ∈ lead loads b) : x ∈ loads := (mem_ite_nil_right.mp hx).2

theorem Stage.lead_eq (hS : Stage f plan heads loads init visited m g pending)
    (hx : x ∈ lead loads b) :
    ∃ reg, (g.program.stmt x).inst = .loadContext (.register reg) :=
  hS.initial.inst_eq (mem_of_lead hx)

section

variable (hS : Stage f plan heads loads init visited m g pending) (hnot : ¬visited b)

include hS hnot

/-- Operations of other blocks are none of this one. -/
theorem Stage.foreign {c : BlockId} (hx : x ∈ g.program.code c) (hne : c ≠ b) :
    ¬(x ∈ (heads b).map Prod.fst ∨ x ∈ f.program.code b) := by
  rintro (hmem | hmem)
  · obtain ⟨e, he, rfl⟩ := mem_map.mp hmem
    exact hne (hS.wf.block_unique hx (hS.headed.mem_code he))
  · refine hne (hS.wf.block_unique hx ?_)
    rw [(hS.todo b hnot).1]
    exact mem_append_right _ (mem_append_right _ hmem)

theorem Stage.lead_not_mem (hx : x ∈ lead loads b) : x ∉ f.program.code b := by
  intro hmem
  have hnodup := hS.wf.nodup_code b
  rw [(hS.todo b hnot).1] at hnodup
  exact (nodup_append.mp (nodup_append.mp hnodup).2.1).2.2 x hx x hmem rfl

end

theorem Stage.operations (hset : Setup f plan heads)
    (hS : Stage f plan heads loads init visited m r.f r.pending) (hnot : ¬visited b)
    (hcur : Current f plan m.version r)
    (hr : r₁ = (r.f.blockOperations b).foldl (renameOperation plan) r) :
    ∃ version ρ, (∀ i v, m.version i v → version i v) ∧
      Visited f plan heads loads b version ρ r r₁ := by
  obtain ⟨hcode, hold⟩ := hS.todo b hnot
  have hcode' : r.f.blockOperations b = _ := hcode
  rw [hcode', foldl_append, foldl_append] at hr
  -- first the phis
  obtain ⟨version₀, hstep₀, hcur₀, hcode₀, hstmt₀, hvalue₀, hpending₀⟩ :=
    foldl_renamePhis hset.bounded hcur (fun e he => hS.headed.mem_code he)
    (fun e he => (hS.headed.phi b e he).1) (fun e he => (hS.headed.phi b e he).2.2)
    (hS.headed.nodup hS.wf b) (hset.nodup b) rfl
  generalize ((heads b).map Prod.fst).foldl (renameOperation plan) r = r₀ at *
  have hkeep₀ : ∀ x ∈ lead loads b ++ f.program.code b,
      r₀.f.program.stmt x = r.f.program.stmt x := by
    intro x hx
    exact hstep₀.confined.stmt_of_mem hS.wf (hcode ▸ mem_append_right _ hx)
      (hS.headed.not_mem hS.wf hcode hx b)
  -- then the loads at the entry
  have hloads : (lead loads b).foldl (renameOperation plan) r₀ = r₀ := by
    refine foldl_renameLoads fun l hl => ?_
    obtain ⟨e, he, hstmt⟩ := exists_of_forall₂ hS.initial.1 (mem_of_lead hl)
    refine ⟨_, _, (hkeep₀ l (mem_append_left _ hl)).trans hstmt, ?_⟩
    -- a version is no register of the source
    rw [registerIndex?_eq_none]
    intro reg hmem
    exact absurd (hset.bounded _ hmem) (hS.known.fresh _ _ (hS.initial.2 e he)).1.not_gt
  rw [hloads] at hr
  -- then the operations of the source
  obtain ⟨version₁, body, new, hstep₁, hcur₁, hcode₁, hbody, hpending₁, hnew⟩ :=
    foldl_renameOperation hset.bounded hcur₀
      (show r₀.f.program.code b = ((heads b).map Prod.fst ++ lead loads b) ++ f.program.code b by
        rw [hcode₀, hcode, append_assoc])
      (fun id hid => (hkeep₀ id (mem_append_right _ hid)).trans (hold id hid))
      (hset.phi b) (hset.sync b) (by
        intro s hs hmem
        rw [hpending₀] at hs
        obtain ⟨c, hc, hanchor⟩ := hS.noted s hs
        exact hnot (hset.wf.block_unique hanchor hmem ▸ hc)) hr
  have hconfined := hstep₀.confined.trans hstep₁.confined
  have hlast : ∀ s x, x ∈ r.f.program.code s → x ∉ f.program.code b →
      r₁.f.program.stmt x = r₀.f.program.stmt x := fun s x hx hn =>
    hstep₁.confined.stmt_of_mem hcur₀.wf (hcode₀ ▸ hx) hn
  have hother : ∀ s x, x ∈ r.f.program.code s → s ≠ b →
      r₁.f.program.stmt x = r.f.program.stmt x := fun s x hx hsb =>
    hconfined.stmt_of_mem hS.wf hx (hS.foreign hnot hx hsb)
  have hphi : ∀ e ∈ heads b, r₁.f.program.stmt e.1 =
      { r.f.program.stmt e.1 with dest := some (r₀.value e.2) } := by
    intro e he
    rw [hlast b e.1 (hS.headed.mem_code he), hstmt₀ e he]
    intro hmem
    exact hS.headed.not_mem hS.wf hcode (mem_append_right _ hmem) b (mem_map_of_mem he)
  have hlead : ∀ x ∈ lead loads b, (r₁.f.program.stmt x).inst ≠ .phi := by
    intro x hx
    rw [hlast b x (hcode ▸ mem_append_right _ (mem_append_left _ hx)) (hS.lead_not_mem hnot hx),
      hkeep₀ x (mem_append_left _ hx)]
    obtain ⟨reg, hreg⟩ := hS.lead_eq hx
    simp [hreg]
  refine ⟨version₁, r₀.value, fun i v hv => hstep₁.more i v (hstep₀.more i v hv), ?_⟩
  refine ⟨⟨hcur₁, ⟨fun s => ?_, fun s e he => ?_⟩, ⟨body, ?_, hbody⟩, hvalue₀,
    fun e he => hstep₁.more _ _ (hcur₀.value e he), new, hpending₁.trans (by rw [hpending₀]),
    hnew⟩, hconfined, hphi⟩
  · by_cases hsb : s = b
    · subst hsb
      refine ⟨lead loads s ++ body, by rw [hcode₁, append_assoc], fun x hx => ?_⟩
      rcases mem_append.mp hx with hx | hx
      · exact hlead x hx
      · refine hbody.not_phi (hset.phi s) ?_ hx
        rintro ρ id stores ⟨rfl, -⟩ y hy
        cases hy
    · obtain ⟨rest, hs, hrest⟩ := hS.headed.code s
      refine ⟨rest, ?_, fun x hx => ?_⟩
      · rw [hstep₁.confined.code s hsb, hcode₀, hs]
      · rw [hother s x (hs ▸ mem_append_right _ hx) hsb]
        exact hrest x hx
  · rw [hconfined.preds]
    by_cases hsb : s = b
    · subst hsb
      rw [hphi e he]
      exact hS.headed.phi s e he
    · rw [hother s e.1 (hS.headed.mem_code he) hsb]
      exact hS.headed.phi s e he
  · rw [hcode₁, append_assoc]

/-- More blocks have been visited; the versions at the others are what they were. -/
structure Marks.Extends (visited : BlockId → Prop) (m m' : Marks) : Prop where
  version : ∀ i v, m.version i v → m'.version i v
  incoming : ∀ x, visited x → m'.incoming x = m.incoming x
  outgoing : ∀ x, visited x → m'.outgoing x = m.outgoing x

theorem Visited.successors_eq (hv : Visited f plan heads loads b version ρ r r₁)
    (hloads : ∀ x ∈ lead loads b, (r₁.f.program.stmt x).inst.targets = []) :
    r₁.f.program.successors b = f.program.successors b := by
  obtain ⟨body, hcode, hbody⟩ := hv.body
  have hheads : ∀ x ∈ (heads b).map Prod.fst, (r₁.f.program.stmt x).inst.targets = [] := by
    intro x hx
    obtain ⟨e, he, rfl⟩ := mem_map.mp hx
    rw [(hv.headed.phi b e he).1]
    rfl
  change r₁.f.program.continues (r₁.f.program.code b) = f.program.continues (f.program.code b)
  rw [hcode, continues_append _ _ hheads, continues_append _ _ hloads]
  refine hbody.continues_eq ?_
  rintro ρ id stores ⟨rfl, -⟩ x hx
  cases hx

/-- One source is replaced, the one that belongs to `b`. -/
theorem getElem?_set_pred {preds : List BlockId} {sources : List OperandId} {k k' : Nat}
    {d : BlockId} (hnodup : preds.Nodup) (hlen : sources.length = preds.length)
    (hk' : preds[k']? = some b) (hk : preds[k]? = some d) (v : OperandId) :
    (d = b → (sources.set k' v)[k]? = some v) ∧
      (d ≠ b → (sources.set k' v)[k]? = sources[k]?) := by
  have hlt := (List.getElem?_eq_some_iff.mp hk').1
  refine ⟨?_, fun hd => getElem?_set_ne fun hkk => hd ?_⟩
  · rintro rfl
    rw [← (getElem?_inj hlt hnodup).mp (hk'.trans hk.symm)]
    exact getElem?_set_self (hlen ▸ hlt)
  · rw [hkk, hk] at hk'
    exact Option.some.inj hk'

section Turn

variable (hset : Setup f plan heads)
  (hS : Stage f plan heads loads init visited m r.f r.pending) (hnot : ¬visited b)

include hS

section

variable {c : BlockId} {e : OpId × Nat} (hv : Visited f plan heads loads b version ρ r r₁)

include hv

/-- Behind the phis a visit changes nothing but the operations of the block. -/
theorem Visited.behind {rest : List OpId}
    (hc : r.f.program.code c = (heads c).map Prod.fst ++ rest) (hx : x ∈ rest)
    (hn : x ∉ f.program.code b) : r₁.f.program.stmt x = r.f.program.stmt x :=
  hv.confined.stmt_of_mem hS.wf (hc ▸ mem_append_right _ hx)
    (not_or.mpr ⟨hS.headed.not_mem hS.wf hc hx b, hn⟩)

include hnot

theorem Visited.phi_other (he : e ∈ heads c) (hcb : c ≠ b) :
    r₁.f.program.stmt e.1 = r.f.program.stmt e.1 :=
  hv.confined.stmt_of_mem hS.wf (hS.headed.mem_code he)
    (hS.foreign hnot (hS.headed.mem_code he) hcb)

theorem Visited.sources_eq (he : e ∈ heads c) :
    (r₁.f.program.stmt e.1).sources = (r.f.program.stmt e.1).sources := by
  by_cases hcb : c = b
  · subst hcb
    rw [hv.phi e he]
  · rw [hv.phi_other hS hnot he hcb]

theorem Visited.successors : r₁.f.successors b = f.program.successors b := by
  rw [hv.current.wf.successors_eq]
  refine hv.successors_eq fun x hx => ?_
  rw [hv.behind hS (hS.todo b hnot).1 (mem_append_left _ hx) (hS.lead_not_mem hnot hx)]
  obtain ⟨reg, hreg⟩ := hS.lead_eq hx
  rw [hreg]
  rfl

end

include hset hnot

theorem Stage.turn (hcur : Current f plan m.version r)
    (hr₁ : r₁ = (r.f.blockOperations b).foldl (renameOperation plan) r)
    (hr₂ : r₂ = (r₁.f.successors b).foldl (fillPhis plan b) r₁) :
    ∃ version ρ, (∀ i v, m.version i v → version i v) ∧
      Turned f plan heads loads b version ρ r r₂ := by
  obtain ⟨version, ρ, hmore, hv⟩ := hS.operations hset hnot hcur hr₁
  have hpreds₁ : r₁.f.program.preds = f.program.preds := hv.confined.preds.trans hS.preds
  rw [hv.successors hS hnot] at hr₂
  obtain ⟨hc₂, hcur₂, hheaded₂, hcode₂, hstmt₂, hcurrent₂, hpending₂⟩ :=
    foldl_fillPhis hv.current hv.headed (fun s hs => by
        rw [hpreds₁]
        exact (hset.preds.mem s b (hset.exist b s hs)).mpr hs)
      (f.program.nodup_successors b) hr₂
  have hvalue₂ : r₂.value = r₁.value := by
    funext i
    rw [value, hcurrent₂]
    rfl
  -- the phis of blocks that do not follow keep all their sources
  have hfar : ∀ c, c ∉ f.program.successors b → ∀ e ∈ heads c,
      r₂.f.program.stmt e.1 = r₁.f.program.stmt e.1 := by
    intro c hc e he
    have hmem := hv.headed.mem_code he
    refine hc₂.stmt_of_mem hv.current.wf hmem ?_
    rintro ⟨s, hs, hx⟩
    obtain ⟨e', he', heq⟩ := mem_map.mp hx
    have := hv.current.wf.block_unique hmem (heq ▸ hv.headed.mem_code he')
    exact hc (this ▸ hs)
  have hdest : ∀ c, ∀ e ∈ heads c, (r₂.f.program.stmt e.1).dest = (r₁.f.program.stmt e.1).dest := by
    intro c e he
    by_cases hc : c ∈ f.program.successors b
    · obtain ⟨k, -, hk⟩ := hstmt₂ c hc e he
      rw [hk]
    · rw [hfar c hc e he]
  refine ⟨version, ρ, hmore, ⟨hcur₂, hheaded₂, ?_, hv.keep, hv.versions, hpending₂ ▸ hv.pending⟩,
    hc₂.blocks.trans hv.confined.blocks, hc₂.preds.trans hv.confined.preds,
    hv.confined.dests.trans hc₂.dests hv.confined.operands,
    hv.confined.operands.trans hc₂.operands, ?_, ?_, ?_, ?_, ?_⟩
  · obtain ⟨body, hbcode, hbody⟩ := hv.body
    refine ⟨body, hcode₂ ▸ hbcode, ?_⟩
    rw [hvalue₂, hpending₂]
    refine hbody.mono (fun _ _ h => h) (fun x hx => ?_) fun _ _ _ _ h => h
    have hmem : x ∈ r₁.f.program.code b :=
      hbcode ▸ mem_append_right _ (mem_append_right _ hx)
    refine hc₂.stmt_of_mem hv.current.wf hmem ?_
    rintro ⟨s, -, hmem⟩
    exact hv.headed.not_mem hv.current.wf hbcode (mem_append_right _ hx) s hmem
  · intro c hc
    rw [hcode₂, hv.confined.code c hc]
  · intro c rest x hc hx hn
    rw [← hv.behind hS hc hx hn]
    have hlt := hS.wf.lt_operations (hc ▸ mem_append_right _ hx)
    refine hc₂.stmt x (hlt.trans_le hv.confined.operations) ?_
    rintro ⟨s, -, hmem⟩
    exact hS.headed.not_mem hS.wf hc hx s hmem
  · intro e he
    rw [hdest b e he, hv.phi e he]
  · intro c hc e he
    rw [hdest c e he, hv.phi_other hS hnot he hc]
  · intro c e he k d hk
    rw [← hv.sources_eq hS hnot he, hvalue₂]
    by_cases hc : c ∈ f.program.successors b
    · obtain ⟨k', hk', hset'⟩ := hstmt₂ c hc e he
      have hlen := (hv.headed.phi c e he).2.1
      rw [hpreds₁] at hk' hlen
      rw [hset']
      exact getElem?_set_pred (hset.preds.nodup c) hlen hk' hk _
    · rw [hfar c hc e he]
      refine ⟨fun hd => absurd ?_ hc, fun _ => rfl⟩
      subst hd
      have hlt : c.index < f.blocks.size :=
        hS.blocks ▸ hS.wf.lt_blocks (hS.headed.mem_code he)
      exact (hset.preds.mem c d hlt).mp (mem_of_getElem? hk)

omit hset hnot in
theorem Stage.entry_code : ∃ rest,
      r.f.program.code Function.entry = (heads Function.entry).map Prod.fst ++ (loads ++ rest) := by
  have hlead : lead loads Function.entry = loads := if_pos rfl
  by_cases hv : visited Function.entry
  · obtain ⟨body, hcode, -⟩ := hS.done _ hv
    exact ⟨body, hlead ▸ hcode⟩
  · exact ⟨_, hlead ▸ (hS.todo _ hv).1⟩

variable (hmore : ∀ i v, m.version i v → version i v)
  (ht : Turned f plan heads loads b version ρ r r₂)

include hmore ht

omit hset in
theorem Turned.initial : Loads plan.registers version r₂.f.program init loads := by
  refine hS.initial.mono hmore fun x hx => ?_
  obtain ⟨rest, hcode⟩ := hS.entry_code
  refine ht.behind entry _ x hcode (mem_append_left _ hx) fun hmem => ?_
  have hxe : x ∈ r.f.program.code entry :=
    hcode ▸ mem_append_right _ (mem_append_left _ hx)
  by_cases heb : entry = b
  · subst heb
    exact hS.lead_not_mem hnot hx hmem
  · exact hS.foreign hnot hxe heb (.inr hmem)

/-- The blocks that were visited before stay as they are. -/
theorem Turned.done {c : BlockId} (hc : visited c) : ∃ body,
    r₂.f.program.code c = (heads c).map Prod.fst ++ (lead loads c ++ body) ∧
      Body plan.registers version f.program r₂.f.program (Noted plan f.program r₂.pending)
        (m.incoming c) (f.program.code c) body (m.outgoing c) := by
  have hne : c ≠ b := fun heq => hnot (heq ▸ hc)
  obtain ⟨new, hpending, hnew⟩ := ht.pending
  obtain ⟨body, hcode, hbody⟩ := hS.done c hc
  refine ⟨body, (ht.code c hne).trans hcode, hbody.mono hmore (fun x hx => ?_) ?_⟩
  · refine ht.behind c _ x hcode (mem_append_right _ hx) fun hmem => ?_
    refine hS.foreign hnot ?_ hne (.inr hmem)
    rw [hcode]
    exact mem_append_right _ (mem_append_right _ hx)
  · rintro ρ id hid stores ⟨rfl, hfilter⟩
    refine ⟨rfl, ?_⟩
    rw [hpending, filter_append, hfilter, filter_eq_nil_iff.mpr, append_nil]
    intro s hs heq
    have hanchor : s.anchor = id := by simpa using heq
    exact hne (hset.wf.block_unique hid (hanchor ▸ hnew s hs))

/-- A visit leads from one stage to the next. -/
theorem Turned.stage (harrive : Arrives plan init visited m b r.value) :
    Stage f plan heads loads init (fun x => visited x ∨ x = b) (m.visit b ρ r₂.value version)
      r₂.f r₂.pending := by
  have hne : ∀ {c}, visited c → c ≠ b := by
    rintro c hc rfl
    exact hnot hc
  have hin : ∀ {c}, visited c → (m.visit b ρ r₂.value version).incoming c = m.incoming c :=
    fun hc => update_of_ne (hne hc) _ _
  have hout : ∀ {c}, visited c → (m.visit b ρ r₂.value version).outgoing c = m.outgoing c :=
    fun hc => update_of_ne (hne hc) _ _
  have hinb : (m.visit b ρ r₂.value version).incoming b = ρ := update_self ..
  have houtb : (m.visit b ρ r₂.value version).outgoing b = r₂.value := update_self ..
  refine ⟨ht.current.wf, ht.current.known, ht.blocks.trans hS.blocks,
    ht.preds.trans hS.preds, ht.headed, ht.initial hS hnot hmore,
    ?_, ?_, ?_, ?_, ?_, ?_, ?_, ?_, ?_⟩
  · rintro c (hc | rfl)
    · rw [hin hc, hout hc]
      exact ht.done hset hS hnot hmore hc
    · rw [hinb, houtb]
      exact ht.body
  · intro c hc
    rw [not_or] at hc
    obtain ⟨hcode, hold⟩ := hS.todo c hc.1
    refine ⟨(ht.code c hc.2).trans hcode, fun id hid => ?_⟩
    rw [ht.behind c _ id hcode (mem_append_right _ hid), hold id hid]
    exact fun hmem => hc.2 (hset.wf.block_unique hid hmem)
  · rintro c (hc | rfl) e he
    · rw [ht.dest_other c (hne hc) e he, hin hc]
      exact hS.dest c hc e he
    · rw [hinb]
      exact ht.dest e he
  · rintro c e he k d hk (hd | rfl)
    · rw [(ht.source c e he k d hk).2 (hne hd), hout hd]
      exact hS.source c e he k d hk hd
    · rw [houtb]
      exact (ht.source c e he k d hk).1 rfl
  · intro s hs
    obtain ⟨new, hpending, hnew⟩ := ht.pending
    rw [hpending, mem_append] at hs
    rcases hs with hs | hs
    · obtain ⟨c, hc, hanchor⟩ := hS.noted s hs
      exact ⟨c, .inl hc, hanchor⟩
    · exact ⟨b, .inr rfl, hnew s hs⟩
  · rintro c (hc | rfl) e he
    · rw [hin hc]
      exact hmore _ _ (hS.incoming c hc e he)
    · rw [hinb]
      exact ht.versions e he
  · rintro c (hc | rfl) e he
    · rw [hout hc]
      exact hmore _ _ (hS.outgoing c hc e he)
    · rw [houtb]
      exact ht.current.value e he
  · rintro (hc | heq)
    · rw [hin hc]
      exact hS.entry hc
    · subst heq
      rw [← harrive]
      funext i
      refine ht.keep i ?_
      rw [Heads.Has, hset.entry]
      exact not_mem_nil
  · rintro x c (hx | rfl) hxe hparent
    · obtain ⟨hc, heq⟩ := hS.chain x c hx hxe hparent
      refine ⟨.inl hc, ?_⟩
      rw [hin hx, hout hc]
      exact heq
    · rw [Arrives, if_neg hxe] at harrive
      obtain ⟨c', hparent', hc, hvalue⟩ := harrive
      rw [hparent] at hparent'
      cases hparent'
      refine ⟨.inl hc, fun i hi => ?_⟩
      rw [hinb, hout hc, ht.keep i hi, hvalue]

end Turn

/-! ### Subtrees -/

theorem Marks.Extends.trans {visited' : BlockId → Prop} {m' m'' : Marks}
    (h : m.Extends visited m') (h' : m'.Extends visited' m'')
    (hsub : ∀ x, visited x → visited' x) : m.Extends visited m'' where
  version i v hv := h'.version i v (h.version i v hv)
  incoming x hx := (h'.incoming x (hsub x hx)).trans (h.incoming x hx)
  outgoing x hx := (h'.outgoing x (hsub x hx)).trans (h.outgoing x hx)

/-- What is strictly below a block is below one of its children. -/
theorem exists_child (F : Forest order up) {x : BlockId} (h : Anc up b x) (hne : x ≠ b)
    (hx : x ∈ order) :
    ∃ c ∈ order, c ≠ entry ∧ up c = some b ∧ Anc up c x := by
  induction h with
  | refl => exact absurd rfl hne
  | @up x z hup hbz ih =>
    by_cases hzb : z = b
    · subst hzb
      refine ⟨x, hx, ?_, hup, .refl x⟩
      rintro rfl
      exact hne (F.anc_entry.mp (.up hup (.refl z))).symm
    · obtain ⟨c, hc, hce, hcb, hcz⟩ := ih hzb (F.mem_of_anc (.up hup (.refl z)) hx)
      exact ⟨c, hc, hce, hcb, .up hup hcz⟩

/-- The subtrees of two children have nothing in common. -/
theorem children_disjoint (F : Forest order up) {c d x : BlockId} (hc : up c = some b)
    (hd : up d = some b) (hce : c ≠ entry) (hde : d ≠ entry) (hcx : Anc up c x)
    (hdx : Anc up d x) :
    c = d := by
  rcases hcx.total hdx with h | h
  · rcases (anc_iff_of_up hd).mp h with h | h
    · exact h
    · exact absurd h (F.not_anc_parent hce hc)
  · rcases (anc_iff_of_up hc).mp h with h | h
    · exact h.symm
    · exact absurd h (F.not_anc_parent hde hd)

def Below (plan : Plan) (b x : BlockId) : Prop :=
  x ∈ plan.tree.order ∧ Anc plan.tree.parents.parent? b x

section

variable (f plan heads loads init)

/-- What renaming has done once the blocks in `more` have been visited too. -/
structure Reached (visited more : BlockId → Prop) (m : Marks) (r r' : Renaming) (m' : Marks) :
    Prop where
  stage : Stage f plan heads loads init (fun x => visited x ∨ more x) m' r'.f r'.pending
  marks : m.Extends visited m'
  dests : FreshDests r.f r'.f
  operands : r.f.operands.size ≤ r'.f.operands.size

/-- With enough fuel renaming visits a subtree whenever it arrives at its root. -/
def Visits (fuel : Nat) : Prop :=
  ∀ visited m r b, Stage f plan heads loads init visited m r.f r.pending →
    Current f plan m.version r → Arrives plan init visited m b r.value → b ∈ plan.tree.order →
    (∀ x, Below plan b x → ¬visited x) → f.blocks.size ≤ fuel + plan.tree.order.idxOf b →
    ∃ m', Reached f plan heads loads init visited (Below plan b) m r (r.renameBlock plan fuel b) m'

end

theorem Reached.trans {more more' all : BlockId → Prop} {m₁ m₂ : Marks}
    (h : Reached f plan heads loads init visited more m r r₁ m₁)
    (h' : Reached f plan heads loads init (fun x => visited x ∨ more x) more' m₁ r₁ r₂ m₂)
    (hall : ∀ x, all x ↔ more x ∨ more' x) :
    Reached f plan heads loads init visited all m r r₂ m₂ := by
  refine ⟨?_, h.marks.trans h'.marks fun x hx => .inl hx, h.dests.trans h'.dests h.operands,
    h.operands.trans h'.operands⟩
  have heq : (fun x => visited x ∨ all x) = fun x => (visited x ∨ more x) ∨ more' x := by
    funext x
    rw [hall, or_assoc]
  rw [heq]
  exact h'.stage

/-- The subtrees of several children, one after the other. -/
theorem Visits.children (hset : Setup f plan heads) {fuel : Nat}
    (hvisits : Visits f plan heads loads init fuel) {current : Array OperandId}
    (hsize : current.size = plan.registers.length) {cs : List BlockId} (hnodup : cs.Nodup)
    (hcs : ∀ c ∈ cs, c ∈ plan.tree.order ∧ c ≠ Function.entry ∧
      plan.tree.parents.parent? c = some b)
    (hfuel : f.blocks.size ≤ fuel + 1 + plan.tree.order.idxOf b)
    (hS : Stage f plan heads loads init visited m r.f r.pending) (hb : visited b)
    (hcurrent : m.outgoing b = fun i => current.getD i default)
    (hnew : ∀ c ∈ cs, ∀ x, Below plan c x → ¬visited x) :
    ∃ m', Reached f plan heads loads init visited (fun x => ∃ c ∈ cs, Below plan c x) m r
      (cs.foldl (fun s child => renameBlock plan fuel { s with current } child) r) m' := by
  have F := hset.tree.immediate.forest
  induction cs generalizing visited m r with
  | nil =>
    refine ⟨m, ?_, ⟨fun _ _ h => h, fun _ _ => rfl, fun _ _ => rfl⟩, .refl hS.wf, le_rfl⟩
    simpa using hS
  | cons c cs ih =>
    obtain ⟨hc, hce, hparent⟩ := hcs c (.head _)
    rw [nodup_cons] at hnodup
    have hcur : Current f plan m.version { r with current } := by
      refine ⟨hS.wf, hS.known, hsize, fun e he => ?_⟩
      have := hS.outgoing b hb e he
      rw [hcurrent] at this
      exact this
    have harrive : Arrives plan init visited m c (Renaming.mk r.f current r.pending).value := by
      rw [Arrives, if_neg hce]
      exact ⟨b, hparent, hb, hcurrent.symm⟩
    have hidx := F.lt c b hparent hce
    obtain ⟨m₁, h₁⟩ := hvisits visited m { r with current } c hS hcur harrive hc
      (hnew c (.head _)) (by omega)
    obtain ⟨m₂, h₂⟩ := ih hnodup.2 (fun d hd => hcs d (.tail _ hd)) h₁.stage
      (.inl hb) ((h₁.marks.outgoing b hb).trans hcurrent) (by
        rintro d hd x hx (hvis | hbelow)
        · exact hnew d (.tail _ hd) x hx hvis
        · obtain ⟨-, hde, hdparent⟩ := hcs d (.tail _ hd)
          exact hnodup.1 (children_disjoint F hparent hdparent hce hde hbelow.2 hx.2 ▸ hd))
    refine ⟨m₂, Reached.trans ⟨h₁.stage, h₁.marks, h₁.dests, h₁.operands⟩ h₂ fun x => ?_⟩
    simp

theorem visits (hset : Setup f plan heads) (fuel : Nat) : Visits f plan heads loads init fuel := by
  have F := hset.tree.immediate.forest
  induction fuel with
  | zero =>
    intro visited m r b _ _ _ hb _ hfuel
    have hlt := idxOf_lt_length_of_mem hb
    have hlen := hset.tree.ordered.length
    omega
  | succ fuel ih =>
    intro visited m r b hS hcur harrive hb hnew hfuel
    have hnot : ¬visited b := hnew b ⟨hb, .refl b⟩
    rw [renameBlock]
    generalize hr₁ : (r.f.blockOperations b).foldl (renameOperation plan) r = r₁
    generalize hr₂ : (r₁.f.successors b).foldl (fillPhis plan b) r₁ = r₂
    obtain ⟨version, ρ, hmore, ht⟩ := hS.turn hset hnot hcur hr₁.symm hr₂.symm
    have hstage := ht.stage hset hS hnot hmore harrive
    have hne : ∀ x, visited x → x ≠ b := fun x hx heq => hnot (heq ▸ hx)
    have h₁ : Reached f plan heads loads init visited (· = b) m r r₂
        (m.visit b ρ r₂.value version) :=
      ⟨hstage, ⟨hmore, fun x hx => update_of_ne (hne x hx) _ _,
        fun x hx => update_of_ne (hne x hx) _ _⟩, ht.dests, ht.operands⟩
    obtain ⟨rest, hrest⟩ := hset.tree.ordered.head
    have hmem : ∀ c, c ∈ plan.tree.children b ↔ _ := fun c =>
      DominatorTree.mem_children hrest hset.tree.ordered.nodup
    have hnodup : (plan.tree.children b).Nodup :=
      (hset.tree.ordered.nodup.sublist (drop_sublist _ _)).filter _
    obtain ⟨m', h'⟩ := ih.children hset ht.current.size hnodup
      (fun c hc => (hmem c).mp hc) hfuel h₁.stage (.inr rfl) (update_self ..) (by
        rintro c hc x hx (hvis | rfl)
        · obtain ⟨-, -, hparent⟩ := (hmem c).mp hc
          exact hnew x ⟨hx.1, Anc.trans (.up hparent (.refl b)) hx.2⟩ hvis
        · obtain ⟨-, hce, hparent⟩ := (hmem c).mp hc
          exact F.not_anc_parent hce hparent hx.2)
    refine ⟨m', h₁.trans h' fun x => ⟨?_, ?_⟩⟩
    · rintro ⟨hx, hbx⟩
      by_cases hxb : x = b
      · exact .inl hxb
      · obtain ⟨c, hc, hce, hparent, hcx⟩ := exists_child F hbx hxb hx
        exact .inr ⟨c, (hmem c).mpr ⟨hc, hce, hparent⟩, hx, hcx⟩
    · rintro (rfl | ⟨c, hc, hx, hcx⟩)
      · exact ⟨hb, .refl x⟩
      · obtain ⟨-, -, hparent⟩ := (hmem c).mp hc
        exact ⟨hx, Anc.trans (.up hparent (.refl b)) hcx⟩

/-! ### The start -/

def loadFirst (reg : GuestReg × OperandId) (s : Function × List OperandId) :
    Function × List OperandId :=
  let (value, f) := s.1.newLocal (s.1.operand reg.2).ty
  let f := (f.pushFront entry (.loadContext (.register reg.1)) (some value) []).2
  (f, value :: s.2)

/-- Loads of the registers from number `k` on. -/
theorem foldr_loadFirst (hb : Bounded f plan) (h : g.WellFormed)
    (hk : Known f plan.registers version g) (hentry : 0 < g.blocks.size)
    {regs : List (GuestReg × OperandId)} {k : Nat}
    (hregs : ∀ e ∈ regs.zipIdx k, e ∈ plan.registers.zipIdx)
    (hs : s = regs.foldr loadFirst (g, [])) :
    ∃ version' loads, ∃ ρ : Nat → OperandId, Confined entry (fun _ => False) g s.1 ∧
      Known f plan.registers version' s.1 ∧ (∀ i v, version i v → version' i v) ∧
      s.1.program.code entry = loads ++ g.program.code entry ∧
      List.Forall₂ (fun l e => s.1.program.stmt l =
        ⟨.loadContext (.register e.1.1), some (ρ e.2), []⟩) loads (regs.zipIdx k) ∧
      (∀ e ∈ regs.zipIdx k, version' e.2 (ρ e.2)) ∧ s.2.length = regs.length ∧
      ∀ j, j < regs.length → s.2[j]? = some (ρ (k + j)) := by
  induction regs generalizing k s with
  | nil =>
    subst hs
    exact ⟨version, [], fun _ => default, .refl h, hk, fun _ _ hv => hv, rfl, .nil,
      forall_mem_nil _, rfl, fun j hj => absurd hj (Nat.not_lt_zero _)⟩
  | cons reg regs ih =>
    rw [foldr_cons] at hs
    obtain ⟨version₁, loads, ρ, hc₁, hk₁, hmore, hcode, hloads, hversion, hlen, hvalues⟩ :=
      ih (fun e he => hregs e (.tail _ he)) rfl
    generalize regs.foldr loadFirst (g, []) = s₁ at *
    have he : (reg, k) ∈ plan.registers.zipIdx := hregs _ (.head _)
    generalize hres : (s₁.1.newLocal (s₁.1.operand reg.2).ty).2.pushFront entry
      (.loadContext (.register reg.1)) (some ⟨s₁.1.operands.size⟩) [] = res
    have hs' : s = (res.2, ⟨s₁.1.operands.size⟩ :: s₁.2) := by
      rw [hs, ← hres]
      rfl
    have hm := s₁.1.oneMore_newLocal (s₁.1.operand reg.2).ty
    have hins := (hc₁.wf.newLocal _).inserted_pushFront (.loadContext (.register reg.1))
      (b := entry) (by rw [hm.blocks, hc₁.blocks]; exact hentry) (Nat.zero_le _)
      (forall_mem_nil _) hm.dest_lt
    rw [hres, hm.grows.code_eq] at hins
    obtain ⟨hc, hk₂, hid, hids, hstmt₁⟩ := load_spec hb hc₁.wf hk₁ he hins
      fun x hx hne => (mem_cons.mp hx).resolve_left hne
    -- the numbers of the other registers are larger
    have hne : ∀ e ∈ regs.zipIdx (k + 1), e.2 ≠ k := fun e hx heq => by
      have := le_snd_of_mem_zipIdx hx
      omega
    subst hs'
    refine ⟨insertVersion version₁ k ⟨s₁.1.operands.size⟩, res.1 :: loads,
      update ρ k ⟨s₁.1.operands.size⟩, (hc₁.trans hc).mono (by simp), hk₂,
      fun i v hv => .inl (hmore i v hv), ?_, ?_, ?_, ?_, ?_⟩
    · rw [hids, hcode, hid]
      rfl
    · refine .cons ?_ ?_
      · rw [hstmt₁, update_self]
      · have hstmt : ∀ l ∈ loads, res.2.program.stmt l = s₁.1.program.stmt l := by
          intro l hl
          exact hc.stmt_of_mem hc₁.wf (hcode ▸ mem_append_left _ hl) fun hf => hf
        refine forall₂_imp_mem hloads fun l hl e hx heq => ?_
        rw [hstmt l hl, heq, update_of_ne (hne e hx)]
    · intro e hx
      rcases mem_cons.mp hx with rfl | hx
      · exact .inr ⟨rfl, update_self ..⟩
      · rw [update_of_ne (hne e hx)]
        exact .inl (hversion e hx)
    · rw [length_cons, length_cons, hlen]
    · intro j hj
      cases j with
      | zero => simp
      | succ j =>
        rw [getElem?_cons_succ, update_of_ne (by omega), hvalues j (by simpa using hj)]
        congr 2
        omega

theorem Known.start (hP : Placed f plan.registers g plan.phis heads) :
    Known f plan.registers (fun _ _ => False) g where
  toOperandsKept := hP.pools.operandsKept
  fresh _ _ hv := hv.elim
  version_inj _ _ _ hv := hv.elim
  version_ty _ _ _ hv := hv.elim

section

variable (hset : Setup f plan heads) (hP : Placed f plan.registers g plan.phis heads)
  (hentry : 0 < f.blocks.size) (hs : s = loadInitial g plan.registers)

include hset hP hentry hs

/-- Before the first visit all registers have been loaded. -/
theorem Stage.start :
    ∃ m loads, Stage f plan heads loads (fun i => s.2.toArray.getD i default) (fun _ => False) m
        s.1 [] ∧ Current f plan m.version ⟨s.1, s.2.toArray, []⟩ ∧ FreshDests g s.1 ∧
      g.operands.size ≤ s.1.operands.size := by
  obtain ⟨version, loads, ρ, hc, hk, -, hcode, hloads, hversion, hlen, hvalues⟩ :=
    foldr_loadFirst hset.bounded hP.wf (Known.start hP) (hP.pools.blocks ▸ hentry)
      (fun e he => he) hs
  have hvalue : ∀ e ∈ plan.registers.zipIdx, s.2.toArray.getD e.2 default = ρ e.2 := by
    intro e he
    have hj := hvalues e.2 (mem_lt he)
    rw [Nat.zero_add] at hj
    rw [Array.getD_eq_getD_getElem?, getElem?_toArray, hj]
    rfl
  have hpreds : s.1.program.preds = f.program.preds :=
    hc.preds.trans (funext hP.pools.predecessors)
  have hstmt : ∀ b, ∀ x ∈ g.program.code b, s.1.program.stmt x = g.program.stmt x :=
    fun b x hx => hc.stmt_of_mem hP.wf hx fun hf => hf
  have hold : ∀ b, ∀ x ∈ f.program.code b, s.1.program.stmt x = f.program.stmt x := by
    intro b x hx
    rw [hstmt b x (hP.code b ▸ mem_append_right _ hx), hP.old x (hset.wf.lt_operations hx)]
  have hcodes : ∀ b, s.1.program.code b =
      (heads b).map Prod.fst ++ (lead loads b ++ f.program.code b) := by
    intro b
    unfold lead
    split
    · next hb =>
      rw [hb, hcode, hP.code, hset.entry]
      rfl
    · next hb =>
      rw [hc.code b hb, hP.code]
      rfl
  have hheaded : Headed plan heads s.1 := by
    refine ⟨fun b => ⟨_, hcodes b, fun x hx => ?_⟩, fun b e he => ?_⟩
    · rcases mem_append.mp hx with hx | hx
      · obtain ⟨e, -, heq⟩ := exists_of_forall₂ hloads (mem_of_lead hx)
        rw [heq]
        simp
      · rw [hold b x hx]
        exact hset.phi b x hx
    · obtain ⟨reg, hreg, heq⟩ := hP.phi b e he
      rw [hstmt b _ (hP.mem_code he), heq, hpreds]
      refine ⟨rfl, length_map _, (hP.lookup _ _).mpr ⟨b, he⟩, ?_⟩
      exact (List.getElem?_eq_some_iff.mp hreg).1
  have hinit : Loads plan.registers version s.1.program
      (fun i => s.2.toArray.getD i default) loads := by
    refine ⟨forall₂_imp_mem hloads fun l hl e he heq => ?_, fun e he => ?_⟩
    · rw [heq, ← hvalue e he]
    · dsimp only
      rw [hvalue e he]
      exact hversion e he
  refine ⟨⟨fun _ _ => default, fun _ _ => default, version⟩, loads, ?_, ⟨hc.wf, hk, ?_, ?_⟩,
    hc.dests, hc.operands⟩
  · exact ⟨hc.wf, hk, hc.blocks.trans hP.pools.blocks, hpreds, hheaded, hinit,
      fun _ hb => hb.elim, fun b _ => ⟨hcodes b, hold b⟩, fun _ hb => hb.elim,
      fun _ _ _ _ _ _ hb => hb.elim, forall_mem_nil _,
      fun _ hb => hb.elim, fun _ hb => hb.elim, fun hb => hb.elim, fun _ _ hb => hb.elim⟩
  · simpa using hlen
  · exact hinit.2

/-- In the end all reachable blocks have been renamed. -/
theorem renameBlock_stage
    (hr : r = renameBlock plan s.1.blockCount ⟨s.1, s.2.toArray, []⟩ entry) :
    ∃ m loads init, Stage f plan heads loads init f.program.Reachable m r.f r.pending ∧
      FreshDests g r.f := by
  obtain ⟨m, loads, hS, hcur, hdests, hoperands⟩ := Stage.start hset hP hentry hs
  have F := hset.tree.immediate.forest
  have hmem : ∀ x, x ∈ plan.tree.order ↔ f.program.Reachable x := hset.tree.ordered.mem
  have hblocks : s.1.blockCount = f.blocks.size := hS.blocks
  obtain ⟨m', h⟩ := visits hset s.1.blockCount (fun _ => False) m ⟨s.1, s.2.toArray, []⟩
    entry hS hcur (by rw [Arrives]; rfl) ((hmem _).mpr .entry) (fun _ _ hf => hf)
    (by omega)
  refine ⟨m', loads, fun i => s.2.toArray.getD i default, ?_, hdests.trans (hr ▸ h.dests) hoperands⟩
  have hall : f.program.Reachable = fun x => False ∨ Below plan entry x := by
    funext x
    rw [false_or, Below, hmem, eq_iff_iff]
    exact ⟨fun hx => ⟨hx, F.entry_anc (hset.tree.immediate.all x ((hmem x).mpr hx))⟩,
      fun hx => hx.1⟩
  rw [hall, hr]
  exact h.stage

end

end SSA.Renaming

end Dynarec.IR
