import Dynarec.Proofs.IR.Construction
import Dynarec.Proofs.IR.SingleAssignment

/-!
# Construction makes static single assignment form

The version that a register has at some point was defined in the block itself or in a block above
it in the dominator tree, and control has passed that block.
-/

namespace Dynarec.IR

open List

structure Program.LocalsScoped (p : Program) : Prop where
  once : p.DefinedOnce
  use : ∀ b done id rest, p.code b = done ++ id :: rest →
    ∀ o ∈ (p.stmt id).sources, ∀ i, p.kind o = .local_ i → p.DefinedAt b done o
  dest : ∀ b, ∀ id ∈ p.code b, ∀ d, (p.stmt id).dest = some d →
    (∃ i, p.kind d = .local_ i) ∨ ∃ r, p.kind d = .register r
  compare : ∀ b, ∀ id ∈ p.code b, ∀ cmp, (p.stmt id).inst = .compare cmp →
    ∀ o ∈ (p.stmt id).sources, p.ty o = p.sourceTy (p.stmt id)

theorem Function.WellFormed.definedOnce_of_unique {f : Function} (h : f.WellFormed)
    (hunique : ∀ c id c' id' v i, id ∈ f.program.code c → id' ∈ f.program.code c' →
      (f.program.stmt id).dest = some v → (f.program.stmt id').dest = some v →
      f.program.kind v = .local_ i → id = id') : f.program.DefinedOnce := by
  intro c c' l r l' r' id id' v i hl hl' hdest hdest' hv
  have hid := mem_of_split hl
  have hid' := mem_of_split hl'
  obtain rfl := hunique c id c' id' v i hid hid' hdest hdest' hv
  obtain rfl := h.block_unique hid hid'
  have hnot : id ∉ r := fun hmem => h.notMem_code (hl.trans (append_cons l id r)) hmem (by simp)
  exact ⟨rfl, ((append_cons_inj_of_notMem (h.notMem_code hl (.head _)) hnot).mp
    (hl.symm.trans hl')).1, rfl⟩

/-! ### Points of a renamed block -/

section Body

variable {regs : List (GuestReg × OperandId)} {version : Nat → OperandId → Prop} {p q : Program}
  {ρ ρ' : Nat → OperandId} {b : BlockId} {ids ids' : List OpId}
  {Before : (Nat → OperandId) → OpId → List OpId → Prop} {done loads front : List OpId} {s : Stmt}
  {id : OpId}

def Program.VersionsAt (q : Program) (regs : List (GuestReg × OperandId)) (b : BlockId)
    (done : List OpId) (ρ : Nat → OperandId) : Prop :=
  ∀ e ∈ regs.zipIdx, q.DefinedAt b done (ρ e.2)

theorem Program.VersionsAt.mono {more : List OpId} (h : q.VersionsAt regs b done ρ)
    (hsub : done ⊆ more) : q.VersionsAt regs b more ρ := fun e he => (h e he).mono hsub

theorem Loads.versionsAt (h : Loads regs version q ρ loads) (hsub : loads ⊆ done) :
    q.VersionsAt regs b done ρ := by
  intro e he
  obtain ⟨l, hl, heq⟩ := exists_of_forall₂ h.1.flip he
  exact .inl ⟨l, hsub hl, by rw [heq]⟩

section

variable (h : Renames regs version s q id ρ loads ρ')

include h

theorem Renames.versionsAt (hρ : q.VersionsAt regs b done ρ) :
    q.VersionsAt regs b (done ++ id :: loads) ρ' := by
  cases h with
  | sync _ hloads _ =>
    exact hloads.versionsAt fun x hx => mem_append_right _ (.tail _ hx)
  | plain _ hdefines hstmt =>
    cases hdefines with
    | keep _ => exact hρ.mono (subset_append_left _ _)
    | @define i v _ _ =>
      intro e he
      rw [Function.update_apply]
      split
      · exact .inl ⟨id, by simp, by rw [hstmt]⟩
      · exact (hρ e he).mono (subset_append_left _ _)

/-- An operation that writes no register writes what it wrote. -/
theorem Renames.dest_of_none (hnone : s.dest.bind (SSA.registerIndex? regs) = none) :
    (q.stmt id).dest = s.dest := by
  cases h with
  | sync _ _ hstmt => rw [hstmt]
  | plain _ hdefines hstmt =>
    rw [hstmt]
    cases hdefines with
    | keep _ => rfl
    | define hi _ =>
      rw [hnone] at hi
      cases hi

theorem Renames.sources : (q.stmt id).sources = s.sources.map (renamed regs ρ) := by
  cases h with
  | sync _ _ hstmt => rw [hstmt]
  | plain _ _ hstmt => rw [hstmt]

end

theorem Program.Terminated.append_front
    (hfront : ∀ x ∈ front, (q.stmt x).inst.isTerminator = false) (h : q.Terminated ids) :
    q.Terminated (front ++ ids) := by
  obtain ⟨first, last, rfl, hlast⟩ := h.exists_last
  rw [← append_assoc]
  exact .concat (forall_mem_append.mpr ⟨hfront, fun _ => h.front⟩) hlast

theorem Body.terminated (hbody : Body regs version p q Before ρ ids ids' ρ')
    (hbefore : ∀ ρ id stores, Before ρ id stores →
      ∀ x ∈ stores, (q.stmt x).inst.isTerminator = false)
    (h : p.Terminated ids) : q.Terminated ids' := by
  induction hbody with
  | nil ρ => exact h
  | @cons ρ ρ₁ ρ₂ id stores loads ids ids' hstores hrenames hrest ih =>
    refine .append_front (hbefore _ _ _ hstores) ?_
    by_cases hyes : (p.stmt id).inst.isTerminator = true
    · obtain rfl := h.eq_nil hyes
      cases hrest
      cases hrenames with
      | sync hsync _ _ =>
        rw [Instruction.isTerminator_of_synchronizes hsync] at hyes
        cases hyes
      | plain _ _ hstmt =>
        have hid : (q.stmt id).inst.isTerminator = true := by rw [hstmt]; exact hyes
        exact hid
    · have hno : (p.stmt id).inst.isTerminator = false := by simpa using hyes
      have hfront : ∀ x ∈ id :: loads, (q.stmt x).inst.isTerminator = false := by
        intro x hx
        rcases mem_cons.mp hx with rfl | hx
        · rw [hrenames.inst_eq]
          exact hno
        · obtain ⟨r, hr⟩ := hrenames.load_eq hx
          rw [hr]
          rfl
      exact .append_front hfront (ih (h.tail hno))

theorem append_eq_cases {α : Type} {l r pre post : List α} {x : α}
    (h : l ++ r = pre ++ x :: post) :
    (∃ later, l = pre ++ x :: later) ∨ ∃ pre', pre = l ++ pre' ∧ r = pre' ++ x :: post := by
  rcases append_eq_append_iff.mp h with ⟨a, hpre, hr⟩ | ⟨c, hl, hr⟩
  · exact .inr ⟨a, hpre, hr⟩
  · cases c with
    | nil => exact .inr ⟨[], by simpa using hl.symm, by simpa using hr.symm⟩
    | cons y c =>
      obtain ⟨rfl, -⟩ := cons.inj hr
      exact .inl ⟨c, hl⟩

inductive Body.Place (regs : List (GuestReg × OperandId)) (version : Nat → OperandId → Prop)
    (p q : Program) (Before : (Nat → OperandId) → OpId → List OpId → Prop) (b : BlockId)
    (ids front pre : List OpId) (x : OpId) : Prop
  | source {ρ ρ' : Nat → OperandId} {done rest loads : List OpId}
      (hids : ids = done ++ x :: rest) (hdone : done ⊆ pre)
      (hρ : q.VersionsAt regs b (front ++ pre) ρ)
      (hversion : ∀ e ∈ regs.zipIdx, version e.2 (ρ e.2))
      (hrenames : Renames regs version (p.stmt x) q x ρ loads ρ')
  | before {ρ : Nat → OperandId} {id : OpId} {stores : List OpId} (hbefore : Before ρ id stores)
      (hx : x ∈ stores) (hρ : q.VersionsAt regs b (front ++ pre) ρ)
      (hversion : ∀ e ∈ regs.zipIdx, version e.2 (ρ e.2))
  | load {ρ : Nat → OperandId} {e : (GuestReg × OperandId) × Nat} (he : e ∈ regs.zipIdx)
      (hversion : version e.2 (ρ e.2))
      (hstmt : q.stmt x = ⟨.loadContext (.register e.1.1), some (ρ e.2), []⟩)

section

variable (hbody : Body regs version p q Before ρ ids ids' ρ') (hρ : q.VersionsAt regs b front ρ)

include hbody hρ

theorem Body.versionsAt : q.VersionsAt regs b (front ++ ids') ρ' := by
  induction hbody generalizing front with
  | nil ρ => exact hρ.mono (subset_append_left _ _)
  | @cons ρ ρ₁ ρ₂ id stores loads ids ids' hstores hrenames hrest ih =>
    have hmid := hrenames.versionsAt (hρ.mono (subset_append_left front stores))
    have hend := ih hmid
    simpa using hend

theorem Body.place (hversion : ∀ e ∈ regs.zipIdx, version e.2 (ρ e.2))
    {pre post : List OpId} {x : OpId} (hx : ids' = pre ++ x :: post) :
    Body.Place regs version p q Before b ids front pre x := by
  induction hbody generalizing front pre with
  | nil ρ => simp at hx
  | @cons ρ ρ₁ ρ₂ id stores loads ids ids' hstores hrenames hrest ih =>
    have hfront : q.VersionsAt regs b (front ++ pre) ρ := hρ.mono (subset_append_left _ _)
    rcases append_eq_cases hx with ⟨later, hstore⟩ | ⟨pre₁, rfl, hx₁⟩
    · exact .before hstores (mem_of_split hstore) hfront hversion
    · cases pre₁ with
      | nil =>
        obtain ⟨rfl, -⟩ := cons.inj hx₁
        exact .source (nil_append _).symm (nil_subset _) hfront hversion hrenames
      | cons y pre₁ =>
        obtain ⟨rfl, htail⟩ := cons.inj hx₁
        rcases append_eq_cases htail with ⟨later, hload⟩ | ⟨pre₂, rfl, hx₂⟩
        · cases hrenames with
          | plain _ _ _ => simp at hload
          | sync _ hloads _ =>
            have hmem := mem_of_split hload
            obtain ⟨e, he, hstmt⟩ := exists_of_forall₂ hloads.1 hmem
            exact .load he (hloads.2 e he) hstmt
        · have hmid : q.VersionsAt regs b (front ++ stores ++ id :: loads) ρ₁ :=
            hrenames.versionsAt (hρ.mono (subset_append_left front stores))
          have heq : front ++ stores ++ id :: loads ++ pre₂ =
              front ++ (stores ++ id :: (loads ++ pre₂)) := by simp
          cases ih hmid (hrenames.versions hversion) hx₂ with
          | @source ρ₃ ρ₄ done rest _ hids hdone hρ₃ hversion₃ hrenames₃ =>
            have hids' : id :: ids = (id :: done) ++ x :: rest := by rw [hids]; rfl
            refine .source hids' ?_ (heq ▸ hρ₃) hversion₃ hrenames₃
            intro u hu
            rcases mem_cons.mp hu with rfl | hu
            · simp
            · simp [hdone hu]
          | before hbefore hx hρ₃ hversion₃ => exact .before hbefore hx (heq ▸ hρ₃) hversion₃
          | load he hversion₃ hstmt => exact .load he hversion₃ hstmt

end

end Body

variable {f : Function} {b : BlockId}

/-! ### Paths of the result -/

/-- Every path passes the ancestors of the block in the dominator tree. -/
theorem DominatorTree.Sound.mem_of_anc {t : DominatorTree} (ht : t.Sound f) (hpreds : f.ExactPreds)
    (hexist : ∀ b c, c ∈ f.program.successors b → c.index < f.blocks.size)
    {visited : List BlockId} (hpath : f.program.Path visited b) {a : BlockId}
    (ha : Anc t.parents.parent? a b) : a ∈ b :: visited := by
  have hi := ht.immediate
  induction hpath with
  | entry => exact hi.forest.anc_entry.mp ha ▸ .head _
  | @step visited c b hc hb ih =>
    have hmem := ht.ordered.mem
    by_cases hbe : b = Function.entry
    · subst hbe
      exact hi.forest.anc_entry.mp ha ▸ (.head _)
    · obtain ⟨p, hp, hnear⟩ := hi.nearest b ((hmem b).mpr (.step hc.reachable hb)) hbe
      rcases (anc_iff_of_up hp).mp ha with rfl | ha
      · exact .head _
      · have hpred : c ∈ f.program.preds b := (hpreds.mem b c (hexist c b hb)).mpr hb
        exact .tail _ (ih ((hnear.2 a).mp ha c hpred (hi.all c ((hmem c).mpr hc.reachable))))

namespace SSA

open Renaming

section Result

variable {f t : Function} {b : BlockId} {x : OpId} {done rest : List OpId} {v d o : OperandId}
  {i : Nat}

theorem Renamed.preds (R : Renamed f t) : t.program.preds = f.program.preds := by
  rw [← R.stage.preds]
  exact funext R.stored.pools.predecessors

theorem Renamed.stores_inst (R : Renamed f t) {ρ : Nat → OperandId} {id : OpId}
    {stores : List OpId} (h : (correspondence f R.marks R.bare t).Stores ρ id stores)
    (hx : x ∈ stores) : ∃ e ∈ f.registers.zipIdx,
      t.program.stmt x = ⟨.storeContext (.register e.1.1), none, [ρ e.2]⟩ := by
  obtain ⟨e, he, heq⟩ := exists_of_forall₂ h hx
  exact ⟨e, mem_of_mem_filter (mem_ite_nil_right.mp he).2, heq⟩

section

variable (hr : Ready f) (R : Renamed f t)

include hr R

/-- The operations of a reachable block in the result. -/
theorem Renamed.block (hb : f.program.Reachable b) :
    ∃ body, (correspondence f R.marks R.bare t).Block b ((R.heads b).map Prod.fst)
      (lead R.loads b) body :=
  R.stored.block R.stage R.registers hr hb

/-- Phis, loads at the entry and stores before operations are no terminators. -/
theorem Renamed.targets_front (hb : f.program.Reachable b)
    (hx : x ∈ (R.heads b).map Prod.fst ++ lead R.loads b) :
    (t.program.stmt x).inst.isTerminator = false := by
  obtain ⟨body, hblock⟩ := R.block hr hb
  rcases mem_append.mp hx with hx | hx
  · obtain ⟨e, -, heq⟩ := hblock.phis x hx
    exact congrArg (·.inst.isTerminator) heq
  · obtain ⟨r, hr⟩ := hblock.load_inst hx
    exact congrArg Instruction.isTerminator hr

theorem Renamed.successors (hb : f.program.Reachable b) :
    t.program.successors b = f.program.successors b := by
  obtain ⟨body, hblock⟩ := R.block hr hb
  change t.program.continues (t.program.code b) = f.program.continues (f.program.code b)
  rw [show t.program.code b = _ from hblock.code, ← append_assoc, Program.continues_append]
  · refine hblock.body.continues_eq fun ρ id stores hstores x hx => ?_
    obtain ⟨e, -, heq⟩ := R.stores_inst hstores hx
    exact congrArg (·.inst.targets) heq
  · exact fun x hx => Instruction.targets_of_not_terminator (R.targets_front hr hb hx)

theorem Renamed.path {visited : List BlockId}
    (h : t.program.Path visited b) : f.program.Path visited b :=
  h.mono fun _ _ hb hc => R.successors hr hb ▸ hc

theorem Renamed.reachable (h : t.program.Reachable b) : f.program.Reachable b :=
  h.mono fun _ _ hb hc => R.successors hr hb ▸ hc

/-- At the start of a block and at its end all versions are defined. -/
theorem Renamed.versionsAt (hb : f.program.Reachable b) :
    t.program.VersionsAt f.registers b ((R.heads b).map Prod.fst ++ lead R.loads b)
        (R.marks.incoming b) ∧
      t.program.VersionsAt f.registers b (t.program.code b) (R.marks.outgoing b) := by
  have F := R.setup.tree.immediate.forest
  have hmem := R.setup.tree.ordered.mem
  induction hn : R.plan.tree.order.idxOf b using Nat.strongRecOn generalizing b with
  | ind n ih =>
    obtain ⟨body, hblock⟩ := R.block hr hb
    have hin : t.program.VersionsAt f.registers b ((R.heads b).map Prod.fst ++ lead R.loads b)
        (R.marks.incoming b) := by
      by_cases hbe : b = Function.entry
      · have hloads := hblock.loads
        rw [if_pos hbe] at hloads
        exact hloads.versionsAt (subset_append_right _ _)
      · intro e he
        by_cases hhas : R.heads.Has b e.2
        · obtain ⟨x, hx, heq⟩ := mem_map.mp hhas
          have hphi := R.stage.dest b hb x hx
          refine .inl ⟨x.1, mem_append_left _ (mem_map_of_mem hx), ?_⟩
          rw [R.stored.old x.1 (R.stage.wf.lt_operations (R.stage.headed.mem_code hx)), hphi, heq]
        · obtain ⟨p, hp, -⟩ := R.setup.tree.immediate.nearest b ((hmem b).mpr hb) hbe
          obtain ⟨hpr, hchain⟩ := R.stage.chain b p hb hbe hp
          rw [hchain e.2 hhas]
          have hout := (ih _ (hn ▸ F.lt b p hp hbe) hpr rfl).2 e he
          refine .inr fun visited hpath => ?_
          have hpmem : p ∈ visited := by
            rcases mem_cons.mp (R.setup.tree.mem_of_anc R.setup.preds R.setup.exist
              (R.path hr hpath) (.up hp (.refl p))) with heq | hmem
            · exact absurd (by rw [heq]; exact .refl b) (F.not_anc_parent hbe hp)
            · exact hmem
          rcases hout with hdef | hbefore
          · exact ⟨p, hpmem, hdef⟩
          · obtain ⟨later, rest, hsplit⟩ := append_of_mem hpmem
            obtain ⟨c, hc, hdef⟩ := hbefore rest (hpath.earlier hsplit)
            exact ⟨c, hsplit ▸ mem_append_right _ (.tail _ hc), hdef⟩
    refine ⟨hin, ?_⟩
    have hout := hblock.body.versionsAt hin
    rw [show t.program.code b = _ from hblock.code, ← append_assoc]
    exact hout

/-- What stands at a place of a reachable block of the result. -/
theorem Renamed.place (hb : f.program.Reachable b) (hcode : t.program.code b = done ++ x :: rest) :
    (∃ e ∈ f.registers.zipIdx, t.program.stmt x = ⟨.phi, some (R.marks.incoming b e.2),
        (t.program.preds b).map (R.marks.outgoing · e.2)⟩) ∨
      (∃ e ∈ f.registers.zipIdx, ∃ v, R.marks.version e.2 v ∧
        t.program.stmt x = ⟨.loadContext (.register e.1.1), some v, []⟩) ∨
      ∃ front pre, done = front ++ pre ∧ Body.Place f.registers R.marks.version f.program t.program
        (correspondence f R.marks R.bare t).Stores b (f.program.code b) front pre x := by
  obtain ⟨body, hblock⟩ := R.block hr hb
  obtain ⟨hin, -⟩ := R.versionsAt hr hb
  have hversion := (R.sound hr).incoming b hb
  have hsplit := hcode.symm.trans hblock.code
  rw [eq_comm] at hsplit
  rcases append_eq_cases hsplit with ⟨later, hphis⟩ | ⟨pre, rfl, hsplit'⟩
  · exact .inl (hblock.phis x (mem_of_split hphis))
  · rcases append_eq_cases hsplit' with ⟨later, hloads⟩ | ⟨pre', rfl, hbody⟩
    · have hmem := mem_of_split hloads
      have hl := hblock.loads
      split at hl
      · obtain ⟨e, he, heq⟩ := exists_of_forall₂ hl.1 hmem
        exact .inr (.inl ⟨e, he, _, hl.2 e he, heq⟩)
      · rw [hl] at hmem
        cases hmem
    · exact .inr (.inr ⟨_, pre', (append_assoc _ _ _).symm, hblock.body.place hin hversion hbody⟩)

/-- Blocks that cannot be reached are left alone. -/
theorem Renamed.unreachable (hb : ¬f.program.Reachable b) : t.program.code b = f.program.code b ∧
      ∀ id ∈ f.program.code b, t.program.stmt id = f.program.stmt id := by
  obtain ⟨hcode, hold⟩ := R.stage.todo b hb
  have hlead : lead R.loads b = [] := if_neg fun heq : b = Function.entry => hb (heq ▸ .entry)
  rw [heads_unreachable R.setup R.complete hb, hlead] at hcode
  have hbare : R.bare.program.code b = f.program.code b := hcode
  have hstores : ∀ id ∈ f.program.code b, R.stores id = [] := by
    refine fun id hid => R.stored.nil fun s hs heq => ?_
    obtain ⟨c, hc, hanchor⟩ := R.stage.noted s (mem_of_mem_filter hs)
    exact hb (hr.wf.block_unique hid (heq ▸ hanchor) ▸ hc)
  constructor
  · rw [R.stored.code, hbare, flatMap_stores hstores]
  · intro id hid
    rw [R.stored.old id (R.stage.wf.lt_operations (hbare ▸ hid)), hold id hid]

/-- No two operations of the result define one local. -/
theorem Renamed.definedOnce (hlocals : f.program.DefinedOnce) : t.program.DefinedOnce := by
  have hdef : ∀ c id v, id ∈ t.program.code c → (t.program.stmt id).dest = some v →
      id ∈ R.bare.program.code c ∧ (R.bare.program.stmt id).dest = some v := by
    intro c id v hid hdest
    rw [R.stored.code] at hid
    obtain ⟨x, hx, hmem⟩ := mem_flatMap.mp hid
    rcases mem_append.mp hmem with hmem | hmem
    · obtain ⟨p, -, heq⟩ := exists_of_forall₂ (R.stored.stores x) hmem
      rw [heq] at hdest
      cases hdest
    · obtain rfl := mem_singleton.mp hmem
      rw [R.stored.old id (R.stage.wf.lt_operations hx)] at hdest
      exact ⟨hx, hdest⟩
  -- old locals are defined where they were, new ones once
  refine R.stored.wf.definedOnce_of_unique fun c id c' id' v i hid hid' hdest hdest' hv => ?_
  obtain ⟨hb, hbd⟩ := hdef c id v hid hdest
  obtain ⟨hb', hbd'⟩ := hdef c' id' v hid' hdest'
  by_cases hlt : v.index < R.withPhis.operands.size
  · have hlt' : v.index < f.operands.size := R.placed.pools.operands ▸ hlt
    have hkind : f.program.kind v = .local_ i := ((R.sound hr).kind v hlt').symm.trans hv
    have hold : ∀ c id, id ∈ R.bare.program.code c → (R.bare.program.stmt id).dest = some v →
        id ∈ f.program.code c ∧ (f.program.stmt id).dest = some v := by
      intro c id hid hdest
      obtain ⟨hmem, hd⟩ := R.dests.old c id v hid hdest hlt
      rw [R.placed.code] at hmem
      rcases mem_append.mp hmem with hmem | hmem
      · obtain ⟨e, he, rfl⟩ := mem_map.mp hmem
        obtain ⟨r, hreg, hstmt⟩ := R.placed.phi c e he
        rw [hstmt] at hd
        cases hd
        have hmem : (r.1, r.2) ∈ f.registers := R.registers ▸ mem_of_getElem? hreg
        rw [(hr.mem_registers.mp hmem).2] at hkind
        cases hkind
      · rw [R.placed.old id (hr.wf.lt_operations hmem)] at hd
        exact ⟨hmem, hd⟩
    obtain ⟨hf, hfd⟩ := hold c id hb hbd
    obtain ⟨hf', hfd'⟩ := hold c' id' hb' hbd'
    exact (hlocals.unique hkind hf hf' hfd hfd').2
  · exact R.dests.new c id c' id' v hb hb' hbd hbd' (not_lt.mp hlt)

/-- A local of the source is defined where it was. -/
theorem Renamed.definedAt_local (hv : f.program.kind v = .local_ i) (hb : f.program.Reachable b)
    {pre : List OpId}
    (hdone : ∀ x ∈ done, x ∈ f.program.code b) (hsub : done ⊆ pre)
    (h : f.program.DefinedAt b done v) : t.program.DefinedAt b pre v := by
  have hkeep : ∀ c x, f.program.Reachable c → x ∈ f.program.code c →
      (f.program.stmt x).dest = some v → x ∈ t.program.code c ∧
      (t.program.stmt x).dest = some v := by
    intro c x hc hx hdest
    obtain ⟨body, hblock⟩ := R.block hr hc
    obtain ⟨ρ, ρ', stores, loads, -, -, hrenames, hmem⟩ :=
      hblock.body.point ((R.sound hr).incoming c hc) hx
    have hnone : registerIndex? f.registers v = none := by
      rw [hr.registerIndex?_eq_none (hr.wf.dest_lt hx hdest)]
      intro r hreg
      rw [hv] at hreg
      cases hreg
    refine ⟨?_, ?_⟩
    · rw [show t.program.code c = _ from hblock.code]
      exact mem_append_right _ (mem_append_right _ hmem)
    · have hsame := hrenames.dest_of_none (show (f.program.stmt x).dest.bind _ = none by
        rw [hdest]
        exact hnone)
      exact hsame.trans hdest
  rcases h with ⟨x, hx, hdest⟩ | hbefore
  · exact .inl ⟨x, hsub hx, (hkeep b x hb (hdone x hx) hdest).2⟩
  · refine .inr (hbefore.mono (fun _ _ hb hc => R.successors hr hb ▸ hc) ?_)
    exact fun c hc ⟨x, hx, hdest⟩ => ⟨x, hkeep c x hc hx hdest⟩

theorem Renamed.kind_version {j : Nat} (hv : R.marks.version j v) :
    ∃ i, t.program.kind v = .local_ i :=
  ((R.sound hr).version j v hv).2

theorem Renamed.terminated (hb : f.program.Reachable b)
    (hterm : f.program.Terminated (f.program.code b)) :
    t.program.Terminated (t.program.code b) := by
  obtain ⟨body, hblock⟩ := R.block hr hb
  rw [show t.program.code b = _ from hblock.code, ← append_assoc]
  refine .append_front (fun x hx => R.targets_front hr hb hx)
    (hblock.body.terminated (fun ρ id stores hstores x hx => ?_) hterm)
  obtain ⟨e, -, heq⟩ := R.stores_inst hstores hx
  exact congrArg (·.inst.isTerminator) heq

/-- Phis are in front of blocks where ways meet, and nothing else is a phi. -/
theorem Renamed.phis (b : BlockId) : ∃ phis rest,
    t.program.code b = phis ++ rest ∧ (∀ x ∈ phis, (t.program.stmt x).inst = .phi) ∧
      (∀ x ∈ rest, (t.program.stmt x).inst ≠ .phi) ∧
      (phis ≠ [] → 2 ≤ (f.predecessors b).length) := by
  by_cases hb : f.program.Reachable b
  · obtain ⟨body, hblock⟩ := R.block hr hb
    refine ⟨_, _, hblock.code, fun x hx => ?_, fun x hx => ?_, fun hne => ?_⟩
    · obtain ⟨e, -, heq⟩ := hblock.phis x hx
      exact congrArg Stmt.inst heq
    · rcases mem_append.mp hx with hx | hx
      · obtain ⟨r, hreg⟩ := hblock.load_inst hx
        rw [show (t.program.stmt x).inst = _ from hreg]
        exact Instruction.noConfusion
      · refine hblock.body.not_phi (hr.phi b) (fun ρ id stores hstores y hy => ?_) hx
        obtain ⟨e, -, heq⟩ := R.stores_inst hstores hy
        rw [show (correspondence f R.marks R.bare t).target.stmt y = _ from heq]
        exact Instruction.noConfusion
    · obtain ⟨e, he⟩ := exists_mem_of_ne_nil (R.heads b) fun hnil => hne (hnil ▸ rfl)
      obtain ⟨x, hx⟩ := R.complete.joins b e.2 (mem_map_of_mem he)
      exact (R.setup.tree.joins hx).2
  · obtain ⟨hcode, hstmt⟩ := R.unreachable hr hb
    refine ⟨[], _, (nil_append _).symm, forall_mem_nil _, fun x hx => ?_,
      absurd rfl⟩
    rw [hcode] at hx
    rw [hstmt x hx]
    exact hr.phi b x hx

theorem Renamed.two_le_preds (hx : x ∈ t.program.code b) (hphi : (t.program.stmt x).inst = .phi) :
    2 ≤ (f.predecessors b).length := by
  obtain ⟨phis, rest, hcode, -, hrest, hjoin⟩ := R.phis hr b
  rw [hcode] at hx
  rcases mem_append.mp hx with hx | hx
  · exact hjoin (ne_nil_of_mem hx)
  · exact absurd hphi (hrest x hx)

/-- No phi stands at the entry. -/
theorem Renamed.entry (hx : x ∈ t.program.code Function.entry) :
    (t.program.stmt x).inst ≠ .phi := by
  intro hphi
  have hjoin := R.two_le_preds hr hx hphi
  rw [show f.predecessors Function.entry = [] from hr.first] at hjoin
  cases hjoin

/-- What an operation of the result says, wherever it stands. -/
inductive Renamed.Says (R : Renamed f t) (b : BlockId) (x : OpId) : Prop
  | phi (hb : f.program.Reachable b) {e : (GuestReg × OperandId) × Nat}
      (he : e ∈ f.registers.zipIdx) (heq : t.program.stmt x = ⟨.phi,
        some (R.marks.incoming b e.2), (t.program.preds b).map (R.marks.outgoing · e.2)⟩)
  | load {r : GuestReg} {i : Nat} {v : OperandId} (hv : R.marks.version i v)
      (heq : t.program.stmt x = ⟨.loadContext (.register r), some v, []⟩)
  | store {r : GuestReg} {i : Nat} {v : OperandId} (hv : R.marks.version i v)
      (heq : t.program.stmt x = ⟨.storeContext (.register r), none, [v]⟩)
  | source {ρ ρ' : Nat → OperandId} {loads : List OpId} (hx : x ∈ f.program.code b)
      (hρ : ∀ e ∈ f.registers.zipIdx, R.marks.version e.2 (ρ e.2))
      (hrenames : Renames f.registers R.marks.version (f.program.stmt x) t.program x ρ loads ρ')
  | dead (hb : ¬f.program.Reachable b) (hx : x ∈ f.program.code b)
      (heq : t.program.stmt x = f.program.stmt x)

theorem Renamed.says (hx : x ∈ t.program.code b) : R.Says b x := by
  by_cases hb : f.program.Reachable b
  · obtain ⟨done, rest, hcode⟩ := append_of_mem hx
    rcases R.place hr hb hcode with ⟨e, he, heq⟩ | ⟨e, -, v, hv, heq⟩ | ⟨front, pre, -, hplace⟩
    · exact .phi hb he heq
    · exact .load hv heq
    · cases hplace with
      | source hids _ _ hρ hrenames => exact .source (mem_of_split hids) hρ hrenames
      | before hbefore hmem _ hρ =>
        obtain ⟨e, he, heq⟩ := R.stores_inst hbefore hmem
        exact .store (hρ e he) heq
      | load _ hv heq => exact .load hv heq
  · obtain ⟨hcode, hstmt⟩ := R.unreachable hr hb
    rw [hcode] at hx
    exact .dead hb hx (hstmt x hx)

/-- Where a phi stands, and what it reads. -/
theorem Renamed.phi (hx : x ∈ t.program.code b)
    (hphi : (t.program.stmt x).inst = .phi) : ∃ e ∈ f.registers.zipIdx, t.program.stmt x =
      ⟨.phi, some (R.marks.incoming b e.2), (t.program.preds b).map (R.marks.outgoing · e.2)⟩ := by
  cases R.says hr hx with
  | phi _ he heq => exact ⟨_, he, heq⟩
  | load _ heq | store _ heq =>
    rw [heq] at hphi
    cases hphi
  | source hx _ hrenames =>
    rw [hrenames.inst_eq] at hphi
    exact absurd hphi (hr.phi b x hx)
  | dead _ hx heq =>
    rw [heq] at hphi
    exact absurd hphi (hr.phi b x hx)

section Operands

variable {ρ : Nat → OperandId} {o : OperandId}

section

variable (ho : o.index < f.operands.size)
  (hversion : ∀ e ∈ f.registers.zipIdx, R.marks.version e.2 (ρ e.2))

include ho hversion

theorem Renamed.ty_renamed : t.program.ty (renamed f.registers ρ o) = f.program.ty o := by
  unfold renamed
  cases hi : registerIndex? f.registers o with
  | none => exact (R.sound hr).ty o ho
  | some i =>
    obtain ⟨r, hreg⟩ := mem_of_registerIndex? hi
    exact (R.sound hr).version_ty _ hreg _ (hversion _ hreg)

theorem Renamed.kind_renamed (r : GuestReg) :
    t.program.kind (renamed f.registers ρ o) ≠ .register r := by
  unfold renamed
  cases hi : registerIndex? f.registers o with
  | none =>
    rw [show t.program.kind o = f.program.kind o from (R.sound hr).kind o ho]
    exact (hr.registerIndex?_eq_none ho).mp hi r
  | some i =>
    obtain ⟨r', hreg⟩ := mem_of_registerIndex? hi
    obtain ⟨k, hk⟩ := R.kind_version hr (hversion _ hreg)
    intro heq
    rw [show t.program.kind (ρ i) = _ from hk] at heq
    cases heq

end

/-- What an operation writes: a version of the register it wrote, or the same as before. -/
theorem Renamed.dest_renamed {loads : List OpId} {ρ' : Nat → OperandId}
    (hx : x ∈ f.program.code b)
    (hrenames : Renames f.registers R.marks.version (f.program.stmt x) t.program x ρ loads ρ')
    (hd : (t.program.stmt x).dest = some d) :
    ∃ d', (f.program.stmt x).dest = some d' ∧ t.program.ty d = f.program.ty d' ∧
      ((∃ j, R.marks.version j d) ∨ d = d' ∧ ∀ r, f.program.kind d' ≠ .register r) := by
  cases hi : (f.program.stmt x).dest.bind (registerIndex? f.registers) with
  | none =>
    have hsame := hrenames.dest_of_none hi
    rw [hd] at hsame
    have hlt := hr.wf.dest_lt hx hsame.symm
    refine ⟨d, hsame.symm, (R.sound hr).ty d hlt, .inr ⟨rfl, ?_⟩⟩
    rw [← hsame] at hi
    exact (hr.registerIndex?_eq_none hlt).mp hi
  | some i =>
    obtain ⟨v, hv, hversion⟩ := hrenames.dest (hr.sync_dest hx) hi
    rw [hd] at hv
    cases hv
    obtain ⟨d', hd', hi'⟩ := Option.bind_eq_some_iff.mp hi
    obtain ⟨r, hreg⟩ := mem_of_registerIndex? hi'
    exact ⟨d', hd', (R.sound hr).version_ty _ hreg d hversion, .inl ⟨i, hversion⟩⟩

end Operands

/-- What an operation writes is a local, or what an operation of the source wrote. -/
theorem Renamed.dest_cases (hx : x ∈ t.program.code b) (hd : (t.program.stmt x).dest = some d) :
    (∃ i, t.program.kind d = .local_ i) ∨
      (∃ id ∈ f.program.code b, (f.program.stmt id).dest = some d) ∧
        t.program.kind d = f.program.kind d ∧ ∀ r, f.program.kind d ≠ .register r := by
  have hkeep : ∀ id ∈ f.program.code b, (f.program.stmt id).dest = some d →
      t.program.kind d = f.program.kind d := fun id hid hdest =>
    (R.sound hr).kind d (hr.wf.dest_lt hid hdest)
  cases R.says hr hx with
  | phi hb he heq =>
    rw [heq] at hd
    cases hd
    exact .inl (R.kind_version hr ((R.sound hr).incoming b hb _ he))
  | load hv heq =>
    rw [heq] at hd
    cases hd
    exact .inl (R.kind_version hr hv)
  | store _ heq =>
    rw [heq] at hd
    cases hd
  | source hmem _ hrenames =>
    obtain ⟨d', hd', -, ⟨j, hv⟩ | ⟨rfl, hreg⟩⟩ := R.dest_renamed hr hmem hrenames hd
    · exact .inl (R.kind_version hr hv)
    · exact .inr ⟨⟨x, hmem, hd'⟩, hkeep x hmem hd', hreg⟩
  | dead hb hmem heq =>
    rw [heq] at hd
    exact .inr ⟨⟨x, hmem, hd⟩, hkeep x hmem hd, hr.dead b hb x hmem d (.inr hd)⟩

section

variable (hlocals : f.program.LocalsScoped)

include hlocals

theorem Renamed.dest (hx : x ∈ t.program.code b) (hd : (t.program.stmt x).dest = some d) :
    ∃ i, t.program.kind d = .local_ i := by
  rcases R.dest_cases hr hx hd with hlocal | ⟨⟨id, hid, hdest⟩, hkind, hreg⟩
  · exact hlocal
  · rw [hkind]
    exact (hlocals.dest b id hid d hdest).resolve_right fun ⟨r, hr⟩ => hreg r hr

omit hlocals in
theorem Renamed.dest_not_register (hx : x ∈ t.program.code b)
    (hd : (t.program.stmt x).dest = some d) (r : GuestReg) : t.program.kind d ≠ .register r := by
  rcases R.dest_cases hr hx hd with ⟨i, hi⟩ | ⟨-, hkind, hreg⟩
  · rw [hi]
    exact OperandKind.noConfusion
  · rw [hkind]
    exact hreg r

omit hlocals in
theorem Renamed.source (hx : x ∈ t.program.code b)
    (ho : o ∈ (t.program.stmt x).sources) (r : GuestReg) :
    t.program.kind o ≠ .register r := by
  have hversion : ∀ {j}, R.marks.version j o → t.program.kind o ≠ .register r := by
    intro j hv heq
    obtain ⟨k, hk⟩ := R.kind_version hr hv
    rw [hk] at heq
    cases heq
  cases R.says hr hx with
  | phi _ he heq =>
    rw [heq] at ho
    obtain ⟨c, hc, rfl⟩ := mem_map.mp ho
    have hpred : c ∈ f.program.preds b := R.preds ▸ hc
    exact hversion ((R.sound hr).outgoing c (hr.reachable b c hpred) _ he)
  | load _ heq =>
    rw [heq] at ho
    cases ho
  | store hv heq =>
    rw [heq] at ho
    obtain rfl := mem_singleton.mp ho
    exact hversion hv
  | source hmem hρ hrenames =>
    rw [hrenames.sources] at ho
    obtain ⟨o', ho', rfl⟩ := mem_map.mp ho
    exact R.kind_renamed hr (hr.wf.source_lt hmem ho') hρ r
  | dead hb hmem heq =>
    rw [heq] at ho
    rw [show t.program.kind o = f.program.kind o from (R.sound hr).kind o (hr.wf.source_lt hmem ho)]
    exact hr.dead b hb x hmem o (.inl ho) r

theorem Renamed.typed
    (hcopy : ∀ b, ∀ id ∈ f.program.code b, (f.program.stmt id).inst = .copy → ∀ d o,
      (f.program.stmt id).dest = some d → (f.program.stmt id).sources[0]? = some o →
      f.program.ty o = f.program.ty d) (hx : x ∈ t.program.code b) :
    t.program.Typed (t.program.stmt x) := by
  cases R.says hr hx with
  | @phi hb e he heq =>
    rw [heq]
    refine ⟨fun h => (by cases h), fun _ d hd o ho => ?_, fun _ h => (by cases h)⟩
    cases hd
    obtain ⟨c, hc, rfl⟩ := mem_map.mp ho
    have hpred : c ∈ f.program.preds b := R.preds ▸ hc
    have hty := (R.sound hr).version_ty e he
    exact (hty _ ((R.sound hr).outgoing c (hr.reachable b c hpred) e he)).trans
      (hty _ ((R.sound hr).incoming b hb e he)).symm
  | load _ heq | store _ heq =>
    rw [heq]
    exact ⟨fun h => (by cases h), fun h => (by cases h), fun _ h => (by cases h)⟩
  | @source ρ ρ' loads hmem hρ hrenames =>
    have hsources := hrenames.sources
    have hty : ∀ o ∈ (f.program.stmt x).sources,
        t.program.ty (renamed f.registers ρ o) = f.program.ty o := fun o ho =>
      R.ty_renamed hr (hr.wf.source_lt hmem ho) hρ
    refine ⟨fun h d o hd ho => ?_, fun h => ?_, fun cmp h o ho => ?_⟩
    · rw [hrenames.inst_eq] at h
      rw [hsources, getElem?_map] at ho
      obtain ⟨o', ho', rfl⟩ := Option.map_eq_some_iff.mp ho
      obtain ⟨d', hd', hdty, -⟩ := R.dest_renamed hr hmem hrenames hd
      rw [hty o' (mem_of_getElem? ho'), hdty]
      exact hcopy b x hmem h d' o' hd' ho'
    · rw [hrenames.inst_eq] at h
      exact absurd h (hr.phi b x hmem)
    · rw [hrenames.inst_eq] at h
      rw [hsources] at ho
      obtain ⟨o', ho', rfl⟩ := mem_map.mp ho
      rw [hty o' ho', Program.sourceTy_map hsources hty]
      exact hlocals.compare b x hmem cmp h o' ho'
  | dead _ hmem heq =>
    rw [heq]
    have hty : ∀ o ∈ (f.program.stmt x).sources, t.program.ty o = f.program.ty o := fun o ho =>
      (R.sound hr).ty o (hr.wf.source_lt hmem ho)
    refine ⟨fun h d o hd ho => ?_, fun h => absurd h (hr.phi b x hmem), fun cmp h o ho => ?_⟩
    · rw [hty o (mem_of_getElem? ho),
        show t.program.ty d = f.program.ty d from (R.sound hr).ty d (hr.wf.dest_lt hmem hd)]
      exact hcopy b x hmem h d o hd ho
    · rw [hty o ho, hlocals.compare b x hmem cmp h o ho]
      exact (Program.sourceTy_map (map_id' _).symm hty).symm

theorem Renamed.use (hcode : t.program.code b = done ++ x :: rest)
    (hphi : (t.program.stmt x).inst ≠ .phi)
    (ho : o ∈ (t.program.stmt x).sources) (hi : t.program.kind o = .local_ i) :
    t.program.DefinedAt b done o := by
  by_cases hb : f.program.Reachable b
  · rcases R.place hr hb hcode with ⟨e, he, heq⟩ | ⟨e, -, v, hv, heq⟩ | ⟨front, pre, rfl, hplace⟩
    · rw [heq] at hphi
      exact absurd rfl hphi
    · rw [heq] at ho
      cases ho
    · cases hplace with
      | @source ρ ρ' done' rest' loads hids hsub hat hρ hrenames =>
        have hmem := mem_of_split hids
        rw [hrenames.sources] at ho
        obtain ⟨o', ho', rfl⟩ := mem_map.mp ho
        unfold renamed at hi ⊢
        cases hindex : registerIndex? f.registers o' with
        | some j =>
          obtain ⟨r, hreg⟩ := mem_of_registerIndex? hindex
          exact hat _ hreg
        | none =>
          rw [hindex] at hi
          have hkind : f.program.kind o' = .local_ i :=
            ((R.sound hr).kind o' (hr.wf.source_lt hmem ho')).symm.trans hi
          refine R.definedAt_local hr hkind hb
            (fun u hu => hids ▸ mem_append_left _ hu)
            (fun u hu => mem_append_right _ (hsub hu))
            (hlocals.use b done' x rest' hids o' ho' i hkind)
      | before hbefore hmem hat _ =>
        obtain ⟨e, he, heq⟩ := R.stores_inst hbefore hmem
        rw [heq] at ho
        obtain rfl := mem_singleton.mp ho
        exact hat e he
      | load _ _ heq =>
        rw [heq] at ho
        cases ho
  · exact .inr (Program.definedBefore_of_not_reachable (fun h => hb (R.reachable hr h)) o)

/-- The result of construction is in static single assignment form. -/
theorem Renamed.singleAssignment
    (hterm : ∀ b, f.program.Reachable b → f.program.Terminated (f.program.code b))
    (hcopy : ∀ b, ∀ id ∈ f.program.code b, (f.program.stmt id).inst = .copy → ∀ d o,
      (f.program.stmt id).dest = some d → (f.program.stmt id).sources[0]? = some o →
      f.program.ty o = f.program.ty d) : t.program.SingleAssignment where
  terminated b hb := R.terminated hr (R.reachable hr hb) (hterm b (R.reachable hr hb))
  entry _ hid := R.entry hr hid
  preds b c hb hc := by
    have hb' := R.reachable hr hb
    exact ((R.sound hr).edge b c hb' (R.successors hr hb' ▸ hc)).2.1
  arity b id hid hphi := by
    obtain ⟨e, -, heq⟩ := R.phi hr hid hphi
    rw [heq]
    exact length_map _
  dest b id hid d hd := R.dest hr hlocals hid hd
  source b id hid o ho r := R.source hr hid ho r
  typed b id hid := R.typed hr hlocals hcopy hid
  once := R.definedOnce hr hlocals.once
  use b done id rest hcode hphi o ho i hi := R.use hr hlocals hcode hphi ho hi
  phi b hb id hid hphi k o c ho hc i hi := by
    obtain ⟨e, he, heq⟩ := R.phi hr hid hphi
    rw [heq, getElem?_map, hc] at ho
    cases ho
    have hpred : c ∈ f.program.preds b := R.preds ▸ mem_of_getElem? hc
    exact (R.versionsAt hr (hr.reachable b c hpred)).2 e he

end

end

end Result

section

variable (h : Constructible f)

include h

/-- Trimming keeps the locals scoped. -/
theorem Constructible.localsScoped_trimmed (hlocals : f.program.LocalsScoped) :
    (trimmed f).program.LocalsScoped := by
  have halike := h.alike_trimmed
  -- an operation with a result stands in a reachable block
  have hdest : ∀ b id d, id ∈ (trimmed f).program.code b →
      ((trimmed f).program.stmt id).dest = some d → f.program.Reachable b := by
    intro b id d hid hd
    rcases h.mem_trimmed hid with ⟨hb, -⟩ | ⟨-, -, pc, v, hstmt, -⟩
    · exact hb
    · rw [hstmt] at hd
      cases hd
  refine ⟨?_, fun b done id rest hcode o ho i hi => ?_, fun b id hid d hd => ?_,
    fun b id hid cmp hcmp o ho => ?_⟩
  · intro b c l r l' r' id id' v i hl hl' hd hd' hv
    have hid := mem_of_split hl
    have hid' := mem_of_split hl'
    have hb := hdest b id v hid hd
    have hc := hdest c id' v hid' hd'
    rw [halike.code b hb] at hl hid
    rw [halike.code c hc] at hl' hid'
    rw [halike.stmt b hb id hid] at hd
    rw [halike.stmt c hc id' hid'] at hd'
    rw [(halike.operand b hb id hid v (.inr hd)).1] at hv
    exact hlocals.once.place hv hl hl' hd hd'
  · by_cases hb : f.program.Reachable b
    · have hid : id ∈ f.program.code b := by rw [← halike.code b hb, hcode]; simp
      rw [halike.code b hb] at hcode
      rw [halike.stmt b hb id hid] at ho
      rw [(halike.operand b hb id hid o (.inl ho)).1] at hi
      rcases hlocals.use b done id rest hcode o ho i hi with ⟨x, hx, hd⟩ | hbefore
      · refine .inl ⟨x, hx, ?_⟩
        rw [halike.stmt b hb x (hcode ▸ mem_append_left _ hx)]
        exact hd
      · refine .inr (hbefore.mono (fun c d _ hd => (h.successors_trimmed hd).2) ?_)
        rintro c hc ⟨x, hx, hd⟩
        rw [← halike.stmt c hc x hx] at hd
        exact ⟨x, halike.code c hc ▸ hx, hd⟩
    · exact .inr (Program.definedBefore_of_not_reachable (fun hr => hb (halike.reachable.mp hr)) o)
  · have hb := hdest b id d hid hd
    rw [halike.code b hb] at hid
    rw [halike.stmt b hb id hid] at hd
    rw [(halike.operand b hb id hid d (.inr hd)).1]
    exact hlocals.dest b id hid d hd
  · rcases h.mem_trimmed hid with ⟨hb, hid⟩ | ⟨-, -, pc, v, hstmt, -⟩
    · rw [halike.stmt b hb id hid] at hcmp ho ⊢
      rw [(halike.operand b hb id hid o (.inl ho)).2, halike.sourceTy hb hid]
      exact hlocals.compare b id hid cmp hcmp o ho
    · rw [hstmt] at hcmp
      cases hcmp

/-- No operation mentions a register any more. -/
theorem Constructible.no_registers {id : OpId} (hid : id ∈ (construct f).2.program.code b)
    {o : OperandId}
    (ho : o ∈ ((construct f).2.program.stmt id).sources ∨
      ((construct f).2.program.stmt id).dest = some o) (r : GuestReg) :
    (construct f).2.program.kind o ≠ .register r := by
  obtain ⟨R⟩ := h.renamed
  rcases ho with ho | ho
  · exact R.source h.ready hid ho r
  · exact R.dest_not_register h.ready hid ho r

theorem Constructible.wf_construct : (construct f).2.WellFormed := by
  obtain ⟨R⟩ := h.renamed
  exact R.stored.wf

/-- A function with scoped locals is turned into static single assignment form. -/
theorem Constructible.singleAssignment (hlocals : f.program.LocalsScoped) :
    (construct f).2.program.SingleAssignment := by
  obtain ⟨R⟩ := h.renamed
  refine R.singleAssignment h.ready (h.localsScoped_trimmed hlocals) (fun b hb => ?_)
    fun b id hid => (h.admissible_trimmed hid).copy
  have hr := h.alike_trimmed.reachable.mp hb
  exact h.alike_trimmed.terminated hr (h.terminated b (h.lt_of_reachable hr))

end

end SSA

end Dynarec.IR
