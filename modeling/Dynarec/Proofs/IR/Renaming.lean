import Dynarec.Proofs.IR.PhiPlacement
import Dynarec.Proofs.IR.Versions

/-!
# Renaming of registers

What renaming does to one operation, to the operations of a block and to the phis of its successors.
Every destination that was a register becomes a new local, the sources become the current versions,
and after an operation at which the host may change the context all registers are loaded again.
-/

open Function (update update_apply update_eq_self update_of_ne update_self)

namespace Dynarec.IR

open List Program

/-- Definitions of old operands are old ones and a new operand has no two definitions. -/
structure FreshDests (g g' : Function) : Prop where
  old : ∀ c id v, id ∈ g'.program.code c → (g'.program.stmt id).dest = some v →
    v.index < g.operands.size → id ∈ g.program.code c ∧ (g.program.stmt id).dest = some v
  new : ∀ c id c' id' v, id ∈ g'.program.code c → id' ∈ g'.program.code c' →
    (g'.program.stmt id).dest = some v → (g'.program.stmt id').dest = some v →
    g.operands.size ≤ v.index → id = id'

namespace FreshDests

variable {g g' g'' : Function}

theorem refl (h : g.WellFormed) : FreshDests g g where
  old _ _ _ hid hd _ := ⟨hid, hd⟩
  new _ _ _ _ _ hid _ hd _ hlt := absurd hlt (h.dest_lt hid hd).not_ge

theorem trans (h : FreshDests g g') (h' : FreshDests g' g'')
    (hsize : g.operands.size ≤ g'.operands.size) : FreshDests g g'' where
  old c id v hid hd hv := by
    obtain ⟨hid', hd'⟩ := h'.old c id v hid hd (hv.trans_le hsize)
    exact h.old c id v hid' hd' hv
  new c id c' id' v hid hid' hd hd' hv := by
    by_cases hlt : v.index < g'.operands.size
    · obtain ⟨hid₁, hd₁⟩ := h'.old c id v hid hd hlt
      obtain ⟨hid₂, hd₂⟩ := h'.old c' id' v hid' hd' hlt
      exact h.new c id c' id' v hid₁ hid₂ hd₁ hd₂ hv
    · exact h'.new c id c' id' v hid hid' hd hd' (not_lt.mp hlt)

/-- Just one operation has the first new operand as destination. -/
theorem single (h : g.WellFormed) (d : OpId)
    (hd : (g'.program.stmt d).dest = some ⟨g.operands.size⟩)
    (hothers : ∀ c x, x ∈ g'.program.code c → x ≠ d →
      x ∈ g.program.code c ∧ (g'.program.stmt x).dest = (g.program.stmt x).dest) :
    FreshDests g g' := by
  have hnew : ∀ c x v, x ∈ g'.program.code c → (g'.program.stmt x).dest = some v →
      g.operands.size ≤ v.index → x = d := by
    intro c x v hx hv hle
    by_contra hne
    obtain ⟨hx', hdest⟩ := hothers c x hx hne
    exact absurd (h.dest_lt hx' (hdest ▸ hv)) hle.not_gt
  refine ⟨fun c id v hid hv hlt => ?_, fun c id c' id' v hid hid' hv hv' hle => ?_⟩
  · have hne : id ≠ d := by
      rintro rfl
      rw [hd] at hv
      cases hv
      exact lt_irrefl _ hlt
    obtain ⟨hid', hdest⟩ := hothers c id hid hne
    exact ⟨hid', hdest ▸ hv⟩
  · rw [hnew c id v hid hv hle, hnew c' id' v hid' hv' hle]

end FreshDests

/-- `g'` is `g` with new operands, new operations in block `b` and changes of some operations. -/
structure Confined (b : BlockId) (own : OpId → Prop) (g g' : Function) : Prop
    extends Function.OperandsKept g g' where
  wf : g'.WellFormed
  blocks : g'.blocks.size = g.blocks.size
  preds : g'.program.preds = g.program.preds
  operations : g.operations.size ≤ g'.operations.size
  code : ∀ c, c ≠ b → g'.program.code c = g.program.code c
  stmt : ∀ id, id.index < g.operations.size → ¬own id → g'.program.stmt id = g.program.stmt id
  dests : FreshDests g g'

namespace Confined

variable {b : BlockId} {own own' : OpId → Prop} {g g' g'' : Function}

theorem refl (h : g.WellFormed) : Confined b own g g where
  toOperandsKept := .refl g
  wf := h
  blocks := rfl
  preds := rfl
  operations := le_rfl
  code _ _ := rfl
  stmt _ _ _ := rfl
  dests := .refl h

theorem trans (h : Confined b own g g') (h' : Confined b own' g' g'') :
    Confined b (fun id => own id ∨ own' id) g g'' where
  toOperandsKept := h.toOperandsKept.trans h'.toOperandsKept
  wf := h'.wf
  blocks := h'.blocks.trans h.blocks
  preds := h'.preds.trans h.preds
  operations := h.operations.trans h'.operations
  code c hc := (h'.code c hc).trans (h.code c hc)
  stmt id hid hnot := by
    rw [not_or] at hnot
    exact (h'.stmt id (hid.trans_le h.operations) hnot.2).trans (h.stmt id hid hnot.1)
  dests := h.dests.trans h'.dests h.operands

theorem mono (h : Confined b own g g') (hsub : ∀ id, own id → own' id) : Confined b own' g g' :=
  { h with stmt := fun id hid hnot => h.stmt id hid fun hown => hnot (hsub id hown) }

theorem stmt_of_mem (h : Confined b own g g') (hw : g.WellFormed) {id : OpId} {c : BlockId}
    (hid : id ∈ g.program.code c) (hnot : ¬own id) : g'.program.stmt id = g.program.stmt id :=
  h.stmt id (hw.lt_operations hid) hnot

/-- A source of an operation changes. -/
theorem setSource (h : g.WellFormed) {id : OpId} {c : BlockId} (hid : id ∈ g.program.code c)
    {i : Nat} (hi : i < (g.program.stmt id).sources.length) {new : OperandId}
    (hnew : new.index < g.operands.size) : Confined b (· = id) g (g.setSource id i new) ∧
      (g.setSource id i new).program.code = g.program.code ∧
      (g.setSource id i new).operands.size = g.operands.size := by
  have hp := h.program_setSource hi new
  have hw := h.setSource hid hi hnew
  have hr := Function.restates_setSource hi new
  have hs := hr.pools
  have hdest : ∀ x, ((g.setSource id i new).program.stmt x).dest = (g.program.stmt x).dest := by
    intro x
    rw [hp, stmt_withStmt]
    split
    · next hx => rw [hx]
    · rfl
  have hcode : (g.setSource id i new).program.code = g.program.code := by rw [hp]; rfl
  refine ⟨⟨hs.operandsKept, hw, hs.blocks, ?_, ?_, fun c _ => ?_, fun x _ hx => ?_,
    fun c x v hx hd _ => ?_, fun c x c' x' v hx _ hd _ hv => ?_⟩, hcode, hs.operands⟩
  · exact funext hs.predecessors
  · exact hr.size.symm.le
  · rw [hcode]
  · rw [hp, stmt_withStmt, if_neg hx]
  · rw [hcode] at hx
    rw [hdest] at hd
    exact ⟨hx, hd⟩
  · have := hw.dest_lt hx hd
    rw [hs.operands] at this
    exact absurd hv this.not_ge

section New

variable (ty : Ty)

/-- Operation `id` of block `b` defines a new local, and nothing else changes. -/
theorem define (h : g.WellFormed) (hw : g'.WellFormed) {id : OpId} {s : Stmt} {ids : List OpId}
    (hp : g'.program = ((g.program.withOperand ⟨g.operands.size⟩ (.local_ g.localCount)
      ty).withStmt id s).withCode b ids) (hdest : s.dest = some ⟨g.operands.size⟩)
    (hids : ∀ x ∈ ids, x ≠ id → x ∈ g.program.code b)
    (hown : id.index < g.operations.size → own id) (hblocks : g'.blocks.size = g.blocks.size)
    (hoperations : g.operations.size ≤ g'.operations.size)
    (hsize : g'.operands.size = g.operands.size + 1) : Confined b own g g' := by
  have hstmt : ∀ x, x ≠ id → g'.program.stmt x = g.program.stmt x := by
    intro x hx
    rw [hp, stmt_withCode, stmt_withStmt, if_neg hx]
    rfl
  have hold : ∀ {o : OperandId}, o.index < g.operands.size → o ≠ ⟨g.operands.size⟩ := by
    rintro o ho rfl
    exact lt_irrefl _ ho
  refine ⟨⟨by omega, fun o ho => ?_, fun o ho => ?_⟩, hw, hblocks, by rw [hp]; rfl, hoperations,
    fun c hc => ?_, fun x hx hnot => hstmt x ?_,
    .single h id ?_ fun c x hx hne => ⟨?_, congrArg Stmt.dest (hstmt x hne)⟩⟩
  · rw [hp, kind_withCode, kind_withStmt, kind_withOperand, if_neg (hold ho)]
  · rw [hp, ty_withCode, ty_withStmt, ty_withOperand, if_neg (hold ho)]
  · rw [hp, code_withCode, if_neg hc]
    rfl
  · rintro rfl
    exact hnot (hown hx)
  · rw [hp, stmt_withCode, stmt_withStmt, if_pos rfl, hdest]
  · rw [hp, code_withCode] at hx
    split at hx
    · next hcb => exact hcb ▸ hids x hx hne
    · exact hx

/-- An operation gets a new local as destination. -/
theorem redefine (h : g.WellFormed) {id : OpId} (hid : id ∈ g.program.code b)
    (hg : g' = (g.newLocal ty).2.setDest id (some ⟨g.operands.size⟩)) :
    Confined b (· = id) g g' ∧
      g'.program = ((g.program.withOperand ⟨g.operands.size⟩ (.local_ g.localCount) ty).withStmt id
        { g.program.stmt id with dest := some ⟨g.operands.size⟩ }).withCode b (g.program.code b) ∧
      g'.operands.size = g.operands.size + 1 := by
  have hm := g.oneMore_newLocal ty
  have hw := h.newLocal ty
  have hid' : id ∈ (g.newLocal ty).2.program.code b := hm.grows.code_eq ▸ hid
  have hr := Function.restates_setDest (hw.live_of_mem hid') (some ⟨g.operands.size⟩)
  have hwf := hw.setDest hid' hm.dest_lt
  rw [← hg] at hr hwf
  have hp := hr.program hw
  rw [hm.program] at hp
  have hp' := hp.trans (withCode_code _ b).symm
  have hsize := hr.pools.operands.trans hm.size
  refine ⟨define ty h hwf hp' rfl (fun _ hx _ => hx) (fun _ => rfl) ?_ ?_ hsize, hp', hsize⟩
  · rw [hr.pools.blocks, hm.blocks]
  · rw [hr.size, hm.operations]

/-- A new operation with a new local as destination. -/
theorem insert (h : g.WellFormed) {s : Instruction} {ids : List OpId} {res : OpId × Function}
    (hins : Function.Inserted (g.newLocal ty).2 b ⟨s, some ⟨g.operands.size⟩, []⟩ ids res)
    (hids : ∀ x ∈ ids, x ≠ ⟨g.operations.size⟩ → x ∈ g.program.code b) :
    Confined b (fun _ => False) g res.2 ∧
      res.2.program = ((g.program.withOperand ⟨g.operands.size⟩ (.local_ g.localCount) ty).withStmt
        ⟨g.operations.size⟩ ⟨s, some ⟨g.operands.size⟩, []⟩).withCode b ids ∧
      res.2.operands.size = g.operands.size + 1 := by
  have hm := g.oneMore_newLocal ty
  have hp := hins.program
  rw [hm.program] at hp
  have hsize := hins.pools.operands.trans hm.size
  refine ⟨define ty h hins.wf hp rfl hids (fun hx => lt_irrefl _ hx) ?_ ?_ hsize, hp, hsize⟩
  · rw [hins.pools.blocks, hm.blocks]
  · rw [hins.size]
    exact Nat.le_succ _

end New

end Confined

/-! ### Versions so far -/

/-- What is known of the versions while `g` is being renamed, where `f` is the function before. -/
structure Known (f : Function) (regs : List (GuestReg × OperandId))
    (version : Nat → OperandId → Prop) (g : Function) : Prop
    extends Function.OperandsKept f g where
  fresh : ∀ i v, version i v → f.operands.size ≤ v.index ∧ v.index < g.operands.size ∧
    ∃ k, g.program.kind v = .local_ k
  version_inj : ∀ i j v, version i v → version j v → i = j
  version_ty : ∀ e ∈ regs.zipIdx, ∀ v, version e.2 v → g.program.ty v = f.program.ty e.1.2

def insertVersion (version : Nat → OperandId → Prop) (i : Nat) (v : OperandId) (j : Nat)
    (w : OperandId) : Prop :=
  version j w ∨ (j = i ∧ w = v)

namespace Known

variable {f g g' : Function} {regs : List (GuestReg × OperandId)}
  {version : Nat → OperandId → Prop} {b : BlockId} {own : OpId → Prop} {id : OpId}

theorem confined (h : Known f regs version g) (hc : Confined b own g g') :
    Known f regs version g' where
  toOperandsKept := h.toOperandsKept.trans hc.toOperandsKept
  fresh i v hv := by
    obtain ⟨hle, hlt, k, hk⟩ := h.fresh i v hv
    exact ⟨hle, hlt.trans_le hc.operands, k, (hc.kind v hlt).trans hk⟩
  version_inj := h.version_inj
  version_ty e he v hv := by
    rw [hc.ty v (h.fresh _ v hv).2.1]
    exact h.version_ty e he v hv

theorem insert (h : Known f regs version g) (hc : Confined b own g g')
    {e : (GuestReg × OperandId) × Nat} (he : e ∈ regs.zipIdx)
    (hreg : e.1.2.index < f.operands.size) {s : Stmt} {ids : List OpId}
    (hp : g'.program = ((g.program.withOperand ⟨g.operands.size⟩ (.local_ g.localCount)
      (g.operand e.1.2).ty).withStmt id s).withCode b ids)
    (hsize : g'.operands.size = g.operands.size + 1) :
    Known f regs (insertVersion version e.2 ⟨g.operands.size⟩) g' where
  toOperandsKept := (h.confined hc).toOperandsKept
  fresh i v hv := by
    rcases hv with hv | ⟨-, rfl⟩
    · exact (h.confined hc).fresh i v hv
    · refine ⟨h.operands, by rw [hsize]; exact Nat.lt_succ_self _, g.localCount, ?_⟩
      rw [hp, kind_withCode, kind_withStmt, kind_withOperand, if_pos rfl]
  version_inj i j v hi hj := by
    -- the new local is past all versions there were
    have hnew : ∀ i, ¬version i ⟨g.operands.size⟩ := fun i hi =>
      lt_irrefl _ (h.fresh i _ hi).2.1
    rcases hi with hi | ⟨rfl, rfl⟩
    · rcases hj with hj | ⟨rfl, rfl⟩
      · exact h.version_inj i j v hi hj
      · exact absurd hi (hnew i)
    · rcases hj with hj | ⟨rfl, -⟩
      · exact absurd hj (hnew j)
      · rfl
  version_ty e' he' v hv := by
    rcases hv with hv | ⟨hi, rfl⟩
    · exact (h.confined hc).version_ty e' he' v hv
    · rw [zipIdx_inj he' he hi, hp, ty_withCode, ty_withStmt, ty_withOperand, if_pos rfl]
      exact h.ty _ hreg

end Known

namespace SSA.Renaming

variable {f : Function} {plan : Plan} {b s : BlockId} {own own' : OpId → Prop}
  {version version' version'' : Nat → OperandId → Prop} {r r' r'' : Renaming} {id : OpId}
  {ρ : Nat → OperandId} {inst : Instruction} {g g' : Function}

theorem value_setIfInBounds {i : Nat} (hi : i < r.current.size) (v : OperandId) :
    (Renaming.mk r.f (r.current.setIfInBounds i v) r.pending).value =
      update r.value i v := by
  funext j
  simp only [value, update_apply, Array.getD_eq_getD_getElem?, Array.getElem?_setIfInBounds]
  split
  · next hij =>
    rw [if_pos hij.symm]
    rfl
  · next hij => rw [if_neg (fun h => hij h.symm)]

section

variable (f plan b own version version' r r')

def Bounded : Prop := ∀ e ∈ plan.registers, e.2.index < f.operands.size

structure Current : Prop where
  wf : r.f.WellFormed
  known : Known f plan.registers version r.f
  size : r.current.size = plan.registers.length
  value : ∀ e ∈ plan.registers.zipIdx, version e.2 (r.value e.2)

/-- What renaming may change when it works on block `b`. -/
structure Step : Prop where
  confined : Confined b own r.f r'.f
  known : Known f plan.registers version' r'.f
  more : ∀ i v, version i v → version' i v
  size : r'.current.size = r.current.size

end

theorem Step.refl (h : r.f.WellFormed) (hk : Known f plan.registers version r.f) :
    Step f plan b own version version r r :=
  ⟨.refl h, hk, fun _ _ hv => hv, rfl⟩

theorem Step.trans (h : Step f plan b own version version' r r')
    (h' : Step f plan b own' version' version'' r' r'') :
    Step f plan b (fun id => own id ∨ own' id) version version'' r r'' :=
  ⟨h.confined.trans h'.confined, h'.known, fun i v hv => h'.more i v (h.more i v hv),
    h'.size.trans h.size⟩

theorem Step.mono (h : Step f plan b own version version' r r') (hsub : ∀ id, own id → own' id) :
    Step f plan b own' version version' r r' :=
  ⟨h.confined.mono hsub, h.known, h.more, h.size⟩

theorem mem_lt {e : (GuestReg × OperandId) × Nat} {regs : List (GuestReg × OperandId)}
    (he : e ∈ regs.zipIdx) : e.2 < regs.length :=
  (List.getElem?_eq_some_iff.mp (mem_zipIdx_iff_getElem?.mp he)).1

section Operation

variable {before after : List OpId} {s : Stmt}

/-- Sources become the current versions, one after the other. -/
theorem foldl_setSource (h : g.WellFormed) (hid : id ∈ g.program.code b)
    (regs : List (GuestReg × OperandId)) (ρ : Nat → OperandId)
    (hρ : ∀ e ∈ regs.zipIdx, (ρ e.2).index < g.operands.size) (done : List OperandId)
    {todo : List OperandId} (hsources : (g.program.stmt id).sources = done ++ todo)
    (hg : g' = (todo.zipIdx done.length).foldl (fun f s =>
      match registerIndex? regs s.1 with
      | some index => f.setSource id s.2 (ρ index)
      | none => f) g) :
    Confined b (· = id) g g' ∧ g'.program.code = g.program.code ∧
      g'.operands.size = g.operands.size ∧
      g'.program.stmt id =
        { g.program.stmt id with sources := done ++ todo.map (renamed regs ρ) } := by
  induction todo generalizing g done with
  | nil =>
    subst hg
    refine ⟨.refl h, rfl, rfl, ?_⟩
    rw [map_nil, ← hsources]
  | cons o todo ih =>
    rw [zipIdx_cons, foldl_cons] at hg
    cases hi : registerIndex? regs o with
    | none =>
      simp only [hi] at hg
      have hren : renamed regs ρ o = o := by rw [renamed, hi]
      obtain ⟨hc, hcode, hsize, hstmt⟩ := ih h hid hρ (done ++ [o])
        (by rw [hsources, append_assoc]; rfl) (by rw [hg, length_append, length_singleton])
      refine ⟨hc, hcode, hsize, ?_⟩
      rw [hstmt, map_cons, hren, append_assoc]
      rfl
    | some i =>
      obtain ⟨reg, hreg⟩ := mem_of_registerIndex? hi
      have hren : renamed regs ρ o = ρ i := by rw [renamed, hi]
      have hlt : done.length < (g.program.stmt id).sources.length := by
        rw [hsources, length_append, length_cons]
        omega
      have hp := h.program_setSource hlt (ρ i)
      obtain ⟨hc₁, hcode₁, hsize₁⟩ := Confined.setSource (b := b) h hid hlt (hρ _ hreg)
      have hstmt₁ : (g.setSource id done.length (ρ i)).program.stmt id =
          { g.program.stmt id with sources := done ++ ρ i :: todo } := by
        rw [hp, stmt_withStmt, hsources]
        simp
      simp only [hi] at hg
      obtain ⟨hc, hcode, hsize, hstmt⟩ := ih hc₁.wf (hcode₁ ▸ hid)
        (hsize₁ ▸ hρ) (done ++ [ρ i])
        (by rw [hstmt₁, append_assoc]; rfl) (by rw [hg, length_append, length_singleton])
      refine ⟨(hc₁.trans hc).mono fun x hx => hx.elim (fun hx => hx) fun hx => hx,
        hcode.trans hcode₁, hsize.trans hsize₁, ?_⟩
      rw [hstmt, hstmt₁, map_cons, hren, append_assoc]
      rfl

theorem renameSources_spec (h : Current f plan version r) (hid : id ∈ r.f.program.code b) :
    Step f plan b (· = id) version version r (r.renameSources plan id) ∧
      (r.renameSources plan id).f.program.code = r.f.program.code ∧
      (r.renameSources plan id).f.program.stmt id = { r.f.program.stmt id with
        sources := (r.f.program.stmt id).sources.map (renamed plan.registers r.value) } := by
  obtain ⟨hc, hcode, -, hstmt⟩ := foldl_setSource h.wf hid plan.registers r.value
    (fun e he => (h.known.fresh _ _ (h.value e he)).2.1) []
    (nil_append (r.f.program.stmt id).sources).symm rfl
  exact ⟨⟨hc, h.known.confined hc, fun _ _ hv => hv, rfl⟩, hcode, hstmt⟩

def loadAfter (s : Renaming × OpId) (e : (GuestReg × OperandId) × Nat) : Renaming × OpId :=
  let (value, f) := s.1.f.newLocal (s.1.f.operand e.1.2).ty
  let (load, f) := f.pushAfter s.2 (.loadContext (.register e.1.1)) (some value) []
  ({ s.1 with f, current := s.1.current.setIfInBounds e.2 value }, load)

/-- The values that the context must hold at an operation. -/
def required (plan : Plan) (ρ : Nat → OperandId) (inst : Instruction) (id : OpId) :
    List PendingStore :=
  if inst.synchronizesContext || inst.leavesFunction then
    plan.registers.mapIdx fun i reg => ⟨id, reg.1, ρ i⟩
  else []

/-- Sources are renamed and what must be stored is noted. -/
def prepare (plan : Plan) (r : Renaming) (id : OpId) : Renaming :=
  let op := r.f.operation id
  let r := r.renameSources plan id
  if op.inst.synchronizesContext || op.inst.leavesFunction then r.require plan id else r

theorem renameOperation_eq (hphi : (r.f.program.stmt id).inst ≠ .phi) :
    r.renameOperation plan id =
      let op := r.f.operation id
      let r := match op.dest.bind (registerIndex? plan.registers) with
        | some index => (r.prepare plan id).redefine plan id index
        | none => r.prepare plan id
      if op.inst.synchronizesContext then r.reload plan id else r := by
  have hphi' : (r.f.operation id).inst ≠ .phi := hphi
  rw [renameOperation, if_neg hphi']
  rfl

theorem prepare_spec (h : Current f plan version r) (hid : id ∈ r.f.program.code b)
    (hs : r.f.program.stmt id = s) (hr : r' = r.prepare plan id) :
    Step f plan b (· = id) version version r r' ∧ r'.f.program.code = r.f.program.code ∧
      r'.f.program.stmt id = { s with sources := s.sources.map (renamed plan.registers r.value) } ∧
      r'.value = r.value ∧ r'.pending = r.pending ++ required plan r.value s.inst id := by
  obtain ⟨hstep, hcode, hstmt⟩ := renameSources_spec h hid
  have hinst : (r.f.operation id).inst = s.inst := by rw [← hs]; rfl
  rw [hs] at hstmt
  subst hr
  rw [prepare, required, hinst]
  split
  · exact ⟨⟨hstep.confined, hstep.known, hstep.more, hstep.size⟩, hcode, hstmt, rfl, rfl⟩
  · exact ⟨hstep, hcode, hstmt, rfl, (append_nil _).symm⟩

theorem Step.current (hstep : Step f plan b own version version' r r')
    (h : Current f plan version r) (hvalue : ∀ e ∈ plan.registers.zipIdx,
      version' e.2 (r'.value e.2)) : Current f plan version' r' :=
  ⟨hstep.confined.wf, hstep.known, hstep.size.trans h.size, hvalue⟩

/-- Nothing stands before an operation, but what must be stored there has been noted. -/
def Noted (plan : Plan) (p : Program) (pending : List PendingStore) (ρ : Nat → OperandId)
    (id : OpId) (stores : List OpId) : Prop :=
  stores = [] ∧ (pending.filter fun s => s.anchor = id) = required plan ρ (p.stmt id).inst id

theorem anchor_of_required {s : PendingStore} (hs : s ∈ required plan ρ inst id) :
    s.anchor = id := by
  obtain ⟨i, hi, rfl⟩ := mem_mapIdx.mp (mem_ite_nil_right.mp hs).2
  rfl

/-- What an operation noted stays all that is noted for it. -/
theorem filter_pending {old new : List PendingStore} (hold : ∀ s ∈ old, s.anchor ≠ id)
    (hnew : ∀ s ∈ new, s.anchor ≠ id) :
    ((old ++ required plan ρ inst id ++ new).filter fun s => s.anchor = id) =
      required plan ρ inst id := by
  have hnil : ∀ l : List PendingStore, (∀ s ∈ l, s.anchor ≠ id) →
      (l.filter fun s => s.anchor = id) = [] := by
    intro l hl
    rw [filter_eq_nil_iff]
    intro s hs
    simpa using hl s hs
  rw [filter_append, filter_append, hnil old hold, hnil new hnew, nil_append,
    append_nil, filter_eq_self]
  intro s hs
  simpa using anchor_of_required hs

section

variable (hb : Bounded f plan)

include hb

/-- A load of a register into a new version. -/
theorem load_spec (h : g.WellFormed) (hk : Known f plan.registers version g)
    {e : (GuestReg × OperandId) × Nat} (he : e ∈ plan.registers.zipIdx) {ids : List OpId}
    {res : OpId × Function}
    (hins : Function.Inserted (g.newLocal (g.operand e.1.2).ty).2 b
      ⟨.loadContext (.register e.1.1), some ⟨g.operands.size⟩, []⟩ ids res)
    (hids : ∀ x ∈ ids, x ≠ ⟨g.operations.size⟩ → x ∈ g.program.code b) :
    Confined b (fun _ => False) g res.2 ∧
      Known f plan.registers (insertVersion version e.2 ⟨g.operands.size⟩) res.2 ∧
      res.1 = ⟨g.operations.size⟩ ∧ res.2.program.code b = ids ∧ res.2.program.stmt res.1 =
        ⟨.loadContext (.register e.1.1), some ⟨g.operands.size⟩, []⟩ := by
  obtain ⟨hc, hp, hsize⟩ := Confined.insert _ h hins hids
  have hid : res.1 = ⟨g.operations.size⟩ := hins.id_eq
  refine ⟨hc, hk.insert hc he (hb _ (fst_mem_of_mem_zipIdx he)) hp hsize, hid, ?_, ?_⟩
  · rw [hp, code_withCode, if_pos rfl]
  · rw [hp, hid, stmt_withCode, stmt_withStmt, if_pos rfl]

theorem foldl_loadAfter (h : r.f.WellFormed) (hk : Known f plan.registers version r.f)
    (hsize : r.current.size = plan.registers.length) {anchor : OpId}
    (hcode : r.f.program.code b = before ++ anchor :: after)
    {es : List ((GuestReg × OperandId) × Nat)} (hes : ∀ e ∈ es, e ∈ plan.registers.zipIdx)
    (hnodup : (es.map Prod.snd).Nodup) (hr : r' = (es.foldl loadAfter (r, anchor)).1) :
    ∃ version' loads, Step f plan b (fun _ => False) version version' r r' ∧
      r'.f.program.code b = before ++ anchor :: (loads ++ after) ∧
      List.Forall₂ (fun l e => r'.f.program.stmt l =
        ⟨.loadContext (.register e.1.1), some (r'.value e.2), []⟩) loads es ∧
      (∀ l ∈ loads, r.f.operations.size ≤ l.index) ∧
      (∀ e ∈ es, version' e.2 (r'.value e.2)) ∧
      (∀ i, i ∉ es.map Prod.snd → r'.value i = r.value i) ∧ r'.pending = r.pending := by
  induction es generalizing r version before anchor with
  | nil =>
    subst hr
    exact ⟨version, [], .refl h hk, hcode, .nil, forall_mem_nil _,
      forall_mem_nil _, fun _ _ => rfl, rfl⟩
  | cons e es ih =>
    have he := hes e (.head _)
    have hlt : e.2 < r.current.size := hsize ▸ mem_lt he
    rw [map_cons, nodup_cons] at hnodup
    rw [foldl_cons] at hr
    generalize hres : (r.f.newLocal (r.f.operand e.1.2).ty).2.pushAfter anchor
      (.loadContext (.register e.1.1)) (some ⟨r.f.operands.size⟩) [] = res
    have hm := r.f.oneMore_newLocal (r.f.operand e.1.2).ty
    have hins := (h.newLocal _).inserted_pushAfter (.loadContext (.register e.1.1))
      (hm.grows.code_eq ▸ hcode) (Nat.zero_le _) (forall_mem_nil _) hm.dest_lt
    rw [hres] at hins
    obtain ⟨hc, hk₁, hid, hids, hstmt⟩ := load_spec hb h hk he hins (by
      intro x hx hne
      rw [hcode]
      simpa [show x ≠ ⟨(r.f.newLocal _).2.operations.size⟩ from hne] using hx)
    have hload : loadAfter (r, anchor) e =
        (⟨res.2, r.current.setIfInBounds e.2 ⟨r.f.operands.size⟩, r.pending⟩, res.1) := by
      rw [← hres]
      rfl
    generalize hr₁ : Renaming.mk res.2 (r.current.setIfInBounds e.2 ⟨r.f.operands.size⟩)
      r.pending = r₁ at hload
    have hf₁ : r₁.f = res.2 := by rw [← hr₁]
    have hvalue₁ : r₁.value = update r.value e.2 ⟨r.f.operands.size⟩ := by
      rw [← hr₁]
      exact value_setIfInBounds hlt _
    have hsize₁ : r₁.current.size = r.current.size := by
      rw [← hr₁]
      exact Array.size_setIfInBounds
    have hstep₁ : Step f plan b (fun _ => False) version
        (insertVersion version e.2 ⟨r.f.operands.size⟩) r r₁ :=
      ⟨hf₁ ▸ hc, hf₁ ▸ hk₁, fun _ _ hv => .inl hv, hsize₁⟩
    have hcode₁ : r₁.f.program.code b = (before ++ [anchor]) ++ res.1 :: after := by
      rw [hf₁, hids, append_assoc, hid]
      rfl
    rw [hload] at hr
    obtain ⟨version', loads, hstep, hcode', hloads, hfresh, hversion, hvalue, hpending⟩ :=
      ih hstep₁.confined.wf hstep₁.known (hsize₁.trans hsize) hcode₁
        (fun x hx => hes x (.tail _ hx)) hnodup.2 hr
    have hve : r'.value e.2 = ⟨r.f.operands.size⟩ := by
      rw [hvalue _ hnodup.1, hvalue₁, update_self]
    refine ⟨version', res.1 :: loads, (hstep₁.trans hstep).mono (by simp), ?_, ?_, ?_, ?_, ?_, ?_⟩
    · rw [hcode', append_assoc]
      rfl
    · refine .cons ?_ hloads
      have hmem : res.1 ∈ r₁.f.program.code b := by
        rw [hcode₁]
        simp
      rw [hstep.confined.stmt_of_mem hstep₁.confined.wf hmem id, hf₁, hstmt, hve]
    · intro l hl
      rcases mem_cons.mp hl with rfl | hl
      · rw [hid]
      · exact hstep₁.confined.operations.trans (hfresh l hl)
    · intro x hx
      rcases mem_cons.mp hx with rfl | hx
      · rw [hve]
        exact hstep.more _ _ (.inr ⟨rfl, rfl⟩)
      · exact hversion x hx
    · intro i hi
      rw [map_cons, mem_cons, not_or] at hi
      rw [hvalue i hi.2, hvalue₁, update_of_ne hi.1]
    · rw [hpending, ← hr₁]

variable (h : Current f plan version r)

include h

/-- A destination becomes a new version. -/
theorem redefine_spec (hid : id ∈ r.f.program.code b) {e : (GuestReg × OperandId) × Nat}
    (he : e ∈ plan.registers.zipIdx) :
    Step f plan b (· = id) version (insertVersion version e.2 ⟨r.f.operands.size⟩) r
        (r.redefine plan id e.2) ∧
      Current f plan (insertVersion version e.2 ⟨r.f.operands.size⟩) (r.redefine plan id e.2) ∧
      (r.redefine plan id e.2).f.program.code = r.f.program.code ∧
      (r.redefine plan id e.2).f.program.stmt id =
        { r.f.program.stmt id with dest := some ⟨r.f.operands.size⟩ } ∧
      (r.redefine plan id e.2).value = update r.value e.2 ⟨r.f.operands.size⟩ ∧
      (r.redefine plan id e.2).pending = r.pending := by
  have hlt : e.2 < r.current.size := h.size ▸ mem_lt he
  have hdef : r.redefine plan id e.2 = ⟨(r.f.newLocal (r.f.operand e.1.2).ty).2.setDest id
      (some ⟨r.f.operands.size⟩),
      r.current.setIfInBounds e.2 ⟨r.f.operands.size⟩, r.pending⟩ := by
    simp only [redefine, mem_zipIdx_iff_getElem?.mp he]
    rfl
  generalize hg : (r.f.newLocal (r.f.operand e.1.2).ty).2.setDest id
    (some ⟨r.f.operands.size⟩) = g at hdef
  rw [hdef]
  obtain ⟨hc, hp, hsize⟩ := Confined.redefine (r.f.operand e.1.2).ty h.wf hid hg.symm
  have hk := h.known.insert hc he (hb _ (fst_mem_of_mem_zipIdx he)) hp hsize
  have hvalue : (Renaming.mk g (r.current.setIfInBounds e.2 ⟨r.f.operands.size⟩) r.pending).value =
      _ := value_setIfInBounds hlt _
  refine ⟨⟨hc, hk, fun _ _ hv => .inl hv, Array.size_setIfInBounds⟩, ⟨hc.wf, hk,
    Array.size_setIfInBounds.trans h.size, fun x hx => ?_⟩, ?_, ?_, hvalue, rfl⟩
  · rw [hvalue, update_apply]
    split
    · next heq => exact .inr ⟨heq, rfl⟩
    · exact .inl (h.value x hx)
  · rw [hp, withCode]
    exact update_eq_self _ _
  · rw [hp, stmt_withCode, stmt_withStmt, if_pos rfl]

/-- What renaming does to an operation that is no phi. -/
theorem renameOperation_spec (hcode : r.f.program.code b = before ++ id :: after)
    (hs : r.f.program.stmt id = s) (hphi : s.inst ≠ .phi)
    (hsync : s.inst.synchronizesContext = true →
      s.dest.bind (registerIndex? plan.registers) = none) (hr : r' = r.renameOperation plan id) :
    ∃ version' loads, Step f plan b (· = id) version version' r r' ∧ Current f plan version' r' ∧
      r'.f.program.code b = before ++ id :: (loads ++ after) ∧
      Renames plan.registers version' s r'.f.program id r.value loads r'.value ∧
      (∀ l ∈ loads, r.f.operations.size ≤ l.index) ∧
      r'.pending = r.pending ++ required plan r.value s.inst id := by
  have hid : id ∈ r.f.program.code b := by
    rw [hcode]
    simp
  rw [renameOperation_eq (hs.symm ▸ hphi)] at hr
  have hinst : (r.f.operation id).inst = s.inst := by rw [← hs]; rfl
  have hdest : (r.f.operation id).dest = s.dest := by rw [← hs]; rfl
  simp only [hinst, hdest] at hr
  obtain ⟨hstep₁, hcode₁, hstmt₁, hvalue₁, hpending₁⟩ := prepare_spec h hid hs rfl
  generalize r.prepare plan id = r₁ at *
  have hcur₁ : Current f plan version r₁ := hstep₁.current h (hvalue₁ ▸ h.value)
  cases hsy : s.inst.synchronizesContext with
  | true =>
    rw [hsync hsy, hsy] at hr
    have hnodup : (plan.registers.zipIdx.map Prod.snd).Nodup := by
      rw [zipIdx_map_snd]
      exact nodup_range'
    obtain ⟨version', loads, hstep, hcode', hloads, hfresh, hversion, -, hpending⟩ :=
      foldl_loadAfter hb hcur₁.wf hcur₁.known hcur₁.size (hcode₁ ▸ hcode) (fun _ he => he) hnodup hr
    have hall : Step f plan b (· = id) version version' r r' :=
      (hstep₁.trans hstep).mono (by simp)
    refine ⟨version', loads, hall, hall.current h hversion, hcode', ?_, ?_, ?_⟩
    · refine .sync hsy ⟨hloads, hversion⟩ ?_
      rw [hstep.confined.stmt_of_mem hcur₁.wf (hcode₁ ▸ hid) fun hf => hf, hstmt₁]
    · exact fun l hl => hstep₁.confined.operations.trans (hfresh l hl)
    · rw [hpending, hpending₁]
  | false =>
    rw [hsy] at hr
    simp only [Bool.false_eq_true, if_false] at hr
    cases hbind : s.dest.bind (registerIndex? plan.registers) with
    | none =>
      rw [hbind] at hr
      subst hr
      refine ⟨version, [], hstep₁, hcur₁, hcode₁ ▸ hcode, ?_, fun l hl => absurd hl
        not_mem_nil, hpending₁⟩
      rw [hvalue₁]
      exact .plain hsy (.keep hbind) hstmt₁
    | some i =>
      rw [hbind] at hr
      obtain ⟨d, -, hi⟩ := Option.bind_eq_some_iff.mp hbind
      obtain ⟨reg, hreg⟩ := mem_of_registerIndex? hi
      obtain ⟨hstep, hcur, hcode', hstmt, hvalue, hpending⟩ :=
        redefine_spec hb hcur₁ (hcode₁ ▸ hid) hreg
      simp only at hr hstep hcur hcode' hstmt hvalue hpending
      rw [← hr] at hstep hcur hcode' hstmt hvalue hpending
      refine ⟨_, [], (hstep₁.trans hstep).mono (by simp), hcur, ?_, ?_,
        forall_mem_nil _, ?_⟩
      · rw [hcode', hcode₁]
        exact hcode
      · rw [hvalue, hvalue₁]
        refine .plain hsy (.define hbind (.inr ⟨rfl, rfl⟩)) ?_
        rw [hstmt, hstmt₁]
      · rw [hpending, hpending₁]

/-! ### The operations of a block -/

/-- What renaming does to the operations of a block that are no phis. -/
theorem foldl_renameOperation {ids : List OpId} (hcode : r.f.program.code b = before ++ ids)
    (hold : ∀ id ∈ ids, r.f.program.stmt id = f.program.stmt id)
    (hphi : ∀ id ∈ ids, (f.program.stmt id).inst ≠ .phi)
    (hsync : ∀ id ∈ ids, (f.program.stmt id).inst.synchronizesContext = true →
      (f.program.stmt id).dest.bind (registerIndex? plan.registers) = none)
    (hpending : ∀ s ∈ r.pending, s.anchor ∉ ids)
    (hr : r' = ids.foldl (renameOperation plan) r) :
    ∃ version' ids' new, Step f plan b (· ∈ ids) version version' r r' ∧
      Current f plan version' r' ∧ r'.f.program.code b = before ++ ids' ∧
      Body plan.registers version' f.program r'.f.program (Noted plan f.program r'.pending) r.value
        ids ids' r'.value ∧
      r'.pending = r.pending ++ new ∧ ∀ s ∈ new, s.anchor ∈ ids := by
  induction ids generalizing r version before with
  | nil =>
    subst hr
    exact ⟨version, [], [], .refl h.wf h.known, h, hcode, .nil _,
      (append_nil _).symm, forall_mem_nil _⟩
  | cons id ids ih =>
    have hnot : id ∉ ids := fun hmem =>
      h.wf.notMem_code (hcode.trans (append_cons _ _ _)) hmem (by simp)
    have hmem : ∀ x ∈ id :: ids, x ∈ r.f.program.code b := by
      intro x hx
      rw [hcode]
      exact mem_append_right _ hx
    rw [foldl_cons] at hr
    obtain ⟨version₁, loads, hstep₁, hcur₁, hcode₁, hrenames, hfresh, hpending₁⟩ :=
      renameOperation_spec hb h hcode (hold id (.head _)) (hphi id (.head _))
        (hsync id (.head _)) rfl
    generalize r.renameOperation plan id = r₁ at *
    have hkeep : ∀ x ∈ ids, r₁.f.program.stmt x = r.f.program.stmt x := by
      intro x hx
      refine hstep₁.confined.stmt_of_mem h.wf (hmem x (.tail _ hx)) ?_
      rintro rfl
      exact hnot hx
    have hcode₁' : r₁.f.program.code b = (before ++ id :: loads) ++ ids := by
      rw [hcode₁, append_assoc]
      rfl
    obtain ⟨version', ids', new, hstep, hcur, hcode', hbody, hpending', hnew⟩ :=
      ih hcur₁ hcode₁'
        (fun x hx => (hkeep x hx).trans (hold x (.tail _ hx)))
        (fun x hx => hphi x (.tail _ hx)) (fun x hx => hsync x (.tail _ hx)) (by
          intro s hs hx
          rw [hpending₁, mem_append] at hs
          rcases hs with hs | hs
          · exact hpending s hs (.tail _ hx)
          · exact hnot (anchor_of_required hs ▸ hx)) hr
    -- later operations change neither this one nor its loads
    have hlast : ∀ x, x ∈ id :: loads → r'.f.program.stmt x = r₁.f.program.stmt x := by
      intro x hx
      have hxc : x ∈ r₁.f.program.code b := by
        rw [hcode₁']
        exact mem_append_left _ (mem_append_right _ hx)
      refine hstep.confined.stmt_of_mem hcur₁.wf hxc fun hx' => ?_
      exact hcur₁.wf.notMem_code hcode₁' hx' (mem_append_right _ hx)
    refine ⟨version', id :: (loads ++ ids'),
      required plan r.value (f.program.stmt id).inst id ++ new,
      (hstep₁.trans hstep).mono fun x hx => hx.elim (fun hx => by simp [hx]) fun hx => by simp [hx],
      hcur, ?_, ?_, ?_, ?_⟩
    · rw [hcode', append_assoc]
      rfl
    · have hnoted : Noted plan f.program r'.pending r.value id [] := by
        refine ⟨rfl, ?_⟩
        rw [hpending', hpending₁]
        exact filter_pending (fun s hs heq => hpending s hs (heq ▸ .head _))
          fun s hs heq => hnot (heq ▸ hnew s hs)
      exact .cons hnoted (hrenames.mono hstep.more (hlast id (.head _))
        fun x hx => hlast x (.tail _ hx)) hbody
    · rw [hpending', hpending₁, append_assoc]
    · intro s hs
      rcases mem_append.mp hs with hs | hs
      · rw [anchor_of_required hs]
        exact .head _
      · exact .tail _ (hnew s hs)

/-- The phis of a block get new versions, one for each register that has a phi. -/
theorem foldl_renamePhis {heads : List (OpId × Nat)}
    (hcode : ∀ e ∈ heads, e.1 ∈ r.f.program.code b)
    (hphi : ∀ e ∈ heads, (r.f.program.stmt e.1).inst = .phi)
    (hlookup : ∀ e ∈ heads, plan.phis.lookup e.1 = some e.2 ∧ e.2 < plan.registers.length)
    (hids : (heads.map Prod.fst).Nodup) (hnodup : (heads.map Prod.snd).Nodup)
    (hr : r' = (heads.map Prod.fst).foldl (renameOperation plan) r) :
    ∃ version', Step f plan b (· ∈ heads.map Prod.fst) version version' r r' ∧
      Current f plan version' r' ∧ r'.f.program.code = r.f.program.code ∧
      (∀ e ∈ heads, r'.f.program.stmt e.1 =
        { r.f.program.stmt e.1 with dest := some (r'.value e.2) }) ∧
      (∀ i, i ∉ heads.map Prod.snd → r'.value i = r.value i) ∧ r'.pending = r.pending := by
  induction heads generalizing r version with
  | nil =>
    subst hr
    exact ⟨version, .refl h.wf h.known, h, rfl, forall_mem_nil _,
      fun _ _ => rfl, rfl⟩
  | cons e heads ih =>
    rw [map_cons, nodup_cons] at hids hnodup
    rw [map_cons, foldl_cons] at hr
    obtain ⟨hlook, hlt⟩ := hlookup e (.head _)
    have hinst : (r.f.operation e.1).inst = .phi := hphi e (.head _)
    have hdef : r.renameOperation plan e.1 = r.redefine plan e.1 e.2 := by
      rw [renameOperation, if_pos hinst, hlook]
    obtain ⟨hstep₁, hcur₁, hcode₁, hstmt₁, hvalue₁, hpending₁⟩ :=
      redefine_spec hb h (hcode e (.head _)) (getElem_mem_zipIdx hlt)
    rw [hdef] at hr
    generalize r.redefine plan e.1 e.2 = r₁ at *
    have hkeep : ∀ x ∈ heads, r₁.f.program.stmt x.1 = r.f.program.stmt x.1 := by
      intro x hx
      refine hstep₁.confined.stmt_of_mem h.wf (hcode x (.tail _ hx)) fun heq => ?_
      exact hids.1 (heq ▸ mem_map_of_mem hx)
    obtain ⟨version', hstep, hcur, hcode', hstmt, hvalue, hpending⟩ := ih hcur₁
      (fun x hx => hcode₁ ▸ hcode x (.tail _ hx))
      (fun x hx => by rw [hkeep x hx]; exact hphi x (.tail _ hx))
      (fun x hx => hlookup x (.tail _ hx)) hids.2 hnodup.2 hr
    refine ⟨version', (hstep₁.trans hstep).mono (fun x hx => ?_), hcur, hcode'.trans hcode₁, ?_, ?_,
      hpending.trans hpending₁⟩
    · rw [map_cons, mem_cons]
      exact hx
    · intro x hx
      rcases mem_cons.mp hx with rfl | hx
      · rw [hstep.confined.stmt_of_mem hcur₁.wf (hcode₁ ▸ hcode x (.head _)) hids.1, hstmt₁,
          hvalue _ hnodup.1, hvalue₁, update_self]
      · rw [hstmt x hx, hkeep x hx]
    · intro i hi
      rw [map_cons, mem_cons, not_or] at hi
      rw [hvalue i hi.2, hvalue₁, update_of_ne hi.1]

end

end Operation

/-- Loads into other operands than registers stay as they are. -/
theorem renameOperation_load {field : Field} {v : OperandId}
    (hstmt : r.f.program.stmt id = ⟨.loadContext field, some v, []⟩)
    (hv : registerIndex? plan.registers v = none) : r.renameOperation plan id = r := by
  have hinst : (r.f.operation id).inst = .loadContext field := congrArg Stmt.inst hstmt
  have hdest : (r.f.operation id).dest = some v := congrArg Stmt.dest hstmt
  have hsources : (r.f.operation id).sources = [] := congrArg Stmt.sources hstmt
  have hprepare : r.prepare plan id = r := by
    rw [prepare, renameSources, hinst, hsources]
    rfl
  rw [renameOperation_eq (by rw [hstmt]; simp)]
  simp only [hinst, hdest, Option.bind_some, hv, hprepare]
  rfl

theorem foldl_renameLoads {loads : List OpId}
    (hloads : ∀ l ∈ loads, ∃ field v, r.f.program.stmt l = ⟨.loadContext field, some v, []⟩ ∧
      registerIndex? plan.registers v = none) : loads.foldl (renameOperation plan) r = r := by
  induction loads with
  | nil => rfl
  | cons l loads ih =>
    obtain ⟨field, v, hstmt, hv⟩ := hloads l (.head _)
    rw [foldl_cons, renameOperation_load hstmt hv]
    exact ih fun x hx => hloads x (.tail _ hx)

/-! ### The phis of the successors -/

theorem foldl_fillHeads (h : g.WellFormed) {heads : List (OpId × Nat)} {k : Nat}
    (hcode : ∀ e ∈ heads, e.1 ∈ g.program.code s)
    (hlookup : ∀ e ∈ heads, plan.phis.lookup e.1 = some e.2 ∧ (ρ e.2).index < g.operands.size)
    (hlen : ∀ e ∈ heads, k < (g.program.stmt e.1).sources.length)
    (hids : (heads.map Prod.fst).Nodup) (hg : g' = (heads.map Prod.fst).foldl (fun f id =>
      match plan.phis.lookup id with
      | some index => f.setSource id k (ρ index)
      | none => f) g) :
    Confined b (· ∈ heads.map Prod.fst) g g' ∧ g'.program.code = g.program.code ∧
      ∀ e ∈ heads, g'.program.stmt e.1 = { g.program.stmt e.1 with
        sources := (g.program.stmt e.1).sources.set k (ρ e.2) } := by
  induction heads generalizing g with
  | nil =>
    subst hg
    exact ⟨.refl h, rfl, forall_mem_nil _⟩
  | cons e heads ih =>
    rw [map_cons, nodup_cons] at hids
    obtain ⟨hlook, hlt⟩ := hlookup e (.head _)
    have hk := hlen e (.head _)
    rw [map_cons, foldl_cons, hlook] at hg
    obtain ⟨hc₁, hcode₁, -⟩ := Confined.setSource (b := b) h (hcode e (.head _)) hk hlt
    have hp := h.program_setSource hk (ρ e.2)
    have hkeep : ∀ x ∈ heads, (g.setSource e.1 k (ρ e.2)).program.stmt x.1 =
        g.program.stmt x.1 := by
      intro x hx
      rw [hp, stmt_withStmt, if_neg]
      exact fun heq => hids.1 (heq ▸ mem_map_of_mem hx)
    obtain ⟨hc, hcode', hstmt⟩ := ih hc₁.wf
      (fun x hx => hcode₁ ▸ hcode x (.tail _ hx))
      (fun x hx => ⟨(hlookup x (.tail _ hx)).1,
        (hlookup x (.tail _ hx)).2.trans_le hc₁.operands⟩)
      (fun x hx => by rw [hkeep x hx]; exact hlen x (.tail _ hx)) hids.2 hg
    refine ⟨(hc₁.trans hc).mono fun x hx => ?_, hcode'.trans hcode₁, ?_⟩
    · rw [map_cons, mem_cons]
      exact hx
    · intro x hx
      rcases mem_cons.mp hx with rfl | hx
      · rw [hc.stmt_of_mem hc₁.wf (hcode₁ ▸ hcode x (.head _)) hids.1, hp, stmt_withStmt,
          if_pos rfl]
      · rw [hstmt x hx, hkeep x hx]

/-- The phis at the head of each block, with nothing else that is a phi. -/
structure Headed (plan : Plan) (heads : Heads) (g : Function) : Prop where
  code : ∀ s, ∃ rest, g.program.code s = (heads s).map Prod.fst ++ rest ∧
    ∀ x ∈ rest, (g.program.stmt x).inst ≠ .phi
  phi : ∀ s, ∀ e ∈ heads s, (g.program.stmt e.1).inst = .phi ∧
    (g.program.stmt e.1).sources.length = (g.program.preds s).length ∧
    plan.phis.lookup e.1 = some e.2 ∧ e.2 < plan.registers.length

variable {heads : Heads}

section

variable (hh : Headed plan heads g)

include hh

theorem Headed.mem_code {e : OpId × Nat} (he : e ∈ heads s) : e.1 ∈ g.program.code s := by
  obtain ⟨rest, hcode, -⟩ := hh.code s
  rw [hcode]
  exact mem_append_left _ (mem_map_of_mem he)

theorem Headed.nodup (h : g.WellFormed) (s : BlockId) : ((heads s).map Prod.fst).Nodup := by
  obtain ⟨rest, hcode, -⟩ := hh.code s
  have hnodup := h.nodup_code s
  rw [hcode] at hnodup
  exact (nodup_append.mp hnodup).1

theorem Headed.takeWhile (s : BlockId) :
    ((g.blockOperations s).takeWhile fun id => (g.operation id).inst == .phi) =
      (heads s).map Prod.fst := by
  obtain ⟨rest, hcode, hrest⟩ := hh.code s
  have hcode' : g.blockOperations s = _ := hcode
  rw [hcode', takeWhile_append_of_pos]
  · cases rest with
    | nil => exact append_nil _
    | cons x rest =>
      have hx : (g.operation x).inst ≠ .phi := hrest x (.head _)
      rw [takeWhile_cons_of_neg (by simpa using hx), append_nil]
  · intro x hx
    obtain ⟨e, he, rfl⟩ := mem_map.mp hx
    rw [beq_iff_eq]
    exact (hh.phi s e he).1

omit hh in
/-- The phis of a successor get the current versions as sources for the edge from `b`. -/
theorem fillPhis_spec (h : Current f plan version r) (hh : Headed plan heads r.f)
    (hs : b ∈ r.f.program.preds s) (hr : r' = r.fillPhis plan b s) :
    ∃ k, (r.f.program.preds s)[k]? = some b ∧
      Confined b (· ∈ (heads s).map Prod.fst) r.f r'.f ∧ r'.f.program.code = r.f.program.code ∧
      (∀ e ∈ heads s, r'.f.program.stmt e.1 = { r.f.program.stmt e.1 with
        sources := (r.f.program.stmt e.1).sources.set k (r.value e.2) }) ∧
      r'.current = r.current ∧ r'.pending = r.pending := by
  obtain ⟨k, hfind, hk⟩ := r.f.program.exists_idxOf?_preds hs
  refine ⟨k, hk, ?_⟩
  have hfind' : (r.f.predecessors s).findIdx? (· == b) = some k := hfind
  rw [fillPhis, hfind'] at hr
  simp only [hh.takeWhile] at hr
  have hlt : ∀ e ∈ heads s, (r.value e.2).index < r.f.operands.size := by
    intro e he
    have hmem := getElem_mem_zipIdx (hh.phi s e he).2.2.2
    exact (h.known.fresh _ _ (h.value _ hmem)).2.1
  obtain ⟨hc, hcode, hstmt⟩ := foldl_fillHeads (b := b) h.wf
    (fun e he => hh.mem_code he) (fun e he => ⟨(hh.phi s e he).2.2.1, hlt e he⟩) (fun e he => by
      rw [(hh.phi s e he).2.1]
      exact (List.getElem?_eq_some_iff.mp hk).1) (hh.nodup h.wf s) rfl
  subst hr
  exact ⟨hc, hcode, hstmt, rfl, rfl⟩

theorem Headed.congr (hcode : g'.program.code = g.program.code)
    (hpreds : g'.program.preds = g.program.preds) (hstmt : ∀ x, (∃ s, x ∈ g.program.code s) →
      (g'.program.stmt x).inst = (g.program.stmt x).inst ∧
      (g'.program.stmt x).sources.length = (g.program.stmt x).sources.length) :
    Headed plan heads g' := by
  refine ⟨fun s => ?_, fun s e he => ?_⟩
  · obtain ⟨rest, hs, hrest⟩ := hh.code s
    refine ⟨rest, hcode ▸ hs, fun x hx => ?_⟩
    rw [(hstmt x ⟨s, hs ▸ mem_append_right _ hx⟩).1]
    exact hrest x hx
  · obtain ⟨hinst, hlen⟩ := hstmt e.1 ⟨s, hh.mem_code he⟩
    rw [hinst, hlen, hpreds]
    exact hh.phi s e he

end

/-- All successors get their sources for the edge from `b`. -/
theorem foldl_fillPhis (h : Current f plan version r) (hh : Headed plan heads r.f)
    {ss : List BlockId} (hss : ∀ s ∈ ss, b ∈ r.f.program.preds s) (hnodup : ss.Nodup)
    (hr : r' = ss.foldl (fillPhis plan b) r) :
    Confined b (fun id => ∃ s ∈ ss, id ∈ (heads s).map Prod.fst) r.f r'.f ∧
      Current f plan version r' ∧ Headed plan heads r'.f ∧ r'.f.program.code = r.f.program.code ∧
      (∀ s ∈ ss, ∀ e ∈ heads s, ∃ k, (r.f.program.preds s)[k]? = some b ∧
        r'.f.program.stmt e.1 = { r.f.program.stmt e.1 with
          sources := (r.f.program.stmt e.1).sources.set k (r.value e.2) }) ∧
      r'.current = r.current ∧ r'.pending = r.pending := by
  induction ss generalizing r with
  | nil =>
    subst hr
    exact ⟨.refl h.wf, h, hh, rfl, forall_mem_nil _, rfl, rfl⟩
  | cons s ss ih =>
    rw [nodup_cons] at hnodup
    rw [foldl_cons] at hr
    obtain ⟨k, hk, hc₁, hcode₁, hstmt₁, hcurrent₁, hpending₁⟩ :=
      fillPhis_spec h hh (hss s (.head _)) rfl
    generalize r.fillPhis plan b s = r₁ at *
    have hvalue₁ : r₁.value = r.value := by
      funext i
      rw [value, hcurrent₁]
      rfl
    have hcur₁ : Current f plan version r₁ :=
      ⟨hc₁.wf, h.known.confined hc₁, hcurrent₁ ▸ h.size, hvalue₁ ▸ h.value⟩
    have hkeep : ∀ x, (∃ c, x ∈ r.f.program.code c) → x ∉ (heads s).map Prod.fst →
        r₁.f.program.stmt x = r.f.program.stmt x := by
      rintro x ⟨c, hx⟩ hnot
      exact hc₁.stmt_of_mem h.wf hx hnot
    have hh₁ : Headed plan heads r₁.f := by
      refine hh.congr hcode₁ hc₁.preds fun x hx => ?_
      by_cases hmem : x ∈ (heads s).map Prod.fst
      · obtain ⟨e, he, rfl⟩ := mem_map.mp hmem
        rw [hstmt₁ e he]
        exact ⟨rfl, length_set⟩
      · rw [hkeep x hx hmem]
        exact ⟨rfl, rfl⟩
    obtain ⟨hc, hcur, hh', hcode, hstmt, hcurrent, hpending⟩ := ih hcur₁ hh₁
      (fun c hx => hc₁.preds ▸ hss c (.tail _ hx)) hnodup.2 hr
    -- the phis of different blocks are different operations
    have hdisjoint : ∀ c ∈ ss, ∀ e ∈ heads c, e.1 ∉ (heads s).map Prod.fst := by
      intro c hx e he hmem
      obtain ⟨e', he', heq⟩ := mem_map.mp hmem
      have hc := hh.mem_code he
      rw [← heq] at hc
      exact hnodup.1 (h.wf.block_unique hc (hh.mem_code he') ▸ hx)
    refine ⟨(hc₁.trans hc).mono fun x hx => ?_, hcur, hh', hcode.trans hcode₁, ?_,
      hcurrent.trans hcurrent₁, hpending.trans hpending₁⟩
    · rcases hx with hx | ⟨c, hx, hmem⟩
      · exact ⟨s, .head _, hx⟩
      · exact ⟨c, .tail _ hx, hmem⟩
    · intro c hx e he
      rcases mem_cons.mp hx with rfl | hx
      · refine ⟨k, hk, ?_⟩
        rw [hc.stmt_of_mem hcur₁.wf (hcode₁ ▸ hh.mem_code he), hstmt₁ e he]
        rintro ⟨c', hc', hmem⟩
        obtain ⟨e', he', heq⟩ := mem_map.mp hmem
        exact hdisjoint c' hc' e' he' (heq ▸ mem_map_of_mem he)
      · obtain ⟨k', hk', hstmt'⟩ := hstmt c hx e he
        refine ⟨k', hc₁.preds ▸ hk', ?_⟩
        rw [hstmt', hkeep e.1 ⟨c, hh.mem_code he⟩ (hdisjoint c hx e he), hvalue₁]

end SSA.Renaming

end Dynarec.IR
