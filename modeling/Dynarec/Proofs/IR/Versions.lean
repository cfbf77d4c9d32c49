import Dynarec.IR.SSA
import Dynarec.Proofs.IR.Registers
import Mathlib.Data.List.Forall2

/-!
# Versions of registers

Construction replaces every register by locals, its versions, and keeps the context up to date where
the host looks at it. This module says what the two programs have to do with each other, block by
block, and shows that they then do the same: at each point the current version of a register holds
its value, and the context holds it too unless the version is dirty.
-/

open Function (update update_of_ne update_self)

namespace Dynarec.IR

open List Program SSA

namespace Instruction

def hasValue : Instruction → Bool
  | store _ | storeContext _ | supervisorCall | breakpoint | undefined | invalidateCacheLine
  | countCall | phi => false
  | inst => !inst.isTerminator

theorem hasValue_of_isTerminator {inst : Instruction} (h : inst.isTerminator = true) :
    inst.hasValue = false := by
  cases inst <;> first | rfl | cases h

theorem isTerminator_of_synchronizes {inst : Instruction} (h : inst.synchronizesContext = true) :
    inst.isTerminator = false := by
  cases inst <;> first | rfl | cases h

end Instruction

theorem Host.perform_isSome {ω : Type} (host : Host ω) {inst : Instruction}
    (h : inst.hasValue = true) (site : Site) (ty sourceTy : Ty) (a b c : UInt64) (w : ω) :
    ∃ v w', host.perform site inst ty sourceTy a b c w = (some v, w') := by
  cases inst <;> first | exact ⟨_, _, rfl⟩ | cases h

namespace Program

/-- A statement as it may stand before construction: no phi, no access to a register field past the
operands, a register as destination only of an instruction that computes its value, and copies
between operands of one type. -/
structure Admissible (p : Program) (s : Stmt) : Prop where
  not_phi : s.inst ≠ .phi
  not_load : ∀ r, s.inst ≠ .loadContext (.register r)
  not_store : ∀ r, s.inst ≠ .storeContext (.register r)
  dest : ∀ d r, s.dest = some d → p.kind d = .register r →
    s.inst.hasValue = true ∧ ∀ field, s.inst ≠ .loadContext field
  copy : s.inst = .copy → ∀ d o, s.dest = some d → s.sources[0]? = some o → p.ty o = p.ty d

theorem Admissible.congr {p q : Program} {s : Stmt} (h : p.Admissible s)
    (hsame : ∀ o, o ∈ s.sources ∨ s.dest = some o → q.kind o = p.kind o ∧ q.ty o = p.ty o) :
    q.Admissible s := by
  refine ⟨h.not_phi, h.not_load, h.not_store, fun d r hd hk => ?_, fun hcopy d o hd ho => ?_⟩
  · exact h.dest d r hd ((hsame d (.inr hd)).1 ▸ hk)
  · rw [(hsame d (.inr hd)).2, (hsame o (.inl (mem_of_getElem? ho))).2]
    exact h.copy hcopy d o hd ho

end Program

/-! ### Registers by number -/

section Numbers

variable {regs : List (GuestReg × OperandId)} {e e' : (GuestReg × OperandId) × Nat} {o : OperandId}

theorem zipIdx_inj (he : e ∈ regs.zipIdx) (he' : e' ∈ regs.zipIdx) (h : e.2 = e'.2) : e = e' := by
  obtain ⟨x, i⟩ := e
  rw [mem_zipIdx_iff_getElem?] at he he'
  cases h
  rw [he] at he'
  cases he'
  rfl

theorem zipIdx_eq_of_reg (hnodup : (regs.map Prod.fst).Nodup) (he : e ∈ regs.zipIdx)
    (he' : e' ∈ regs.zipIdx) (h : e.1.1 = e'.1.1) : e = e' := by
  refine zipIdx_inj he he' ?_
  obtain ⟨x, i⟩ := e
  obtain ⟨y, j⟩ := e'
  rw [mem_zipIdx_iff_getElem?] at he he'
  have hi : (regs.map Prod.fst)[i]? = some x.1 := by simp [he]
  have hj : (regs.map Prod.fst)[j]? = some x.1 := by simpa [he'] using h.symm
  have hlt : i < (regs.map Prod.fst).length := (List.getElem?_eq_some_iff.mp hi).1
  exact (getElem?_inj hlt hnodup).mp (hi.trans hj.symm)

theorem getElem_mem_zipIdx {i : Nat} (hi : i < regs.length) : (regs[i], i) ∈ regs.zipIdx :=
  mem_zipIdx_iff_getElem?.mpr (getElem?_eq_getElem hi)

theorem nodup_zipIdx : regs.zipIdx.Nodup := by
  refine List.Nodup.of_map Prod.snd ?_
  rw [zipIdx_map_snd]
  exact nodup_range'

theorem registerIndex?_eq_none : registerIndex? regs o = none ↔ ∀ r, (r, o) ∉ regs := by
  simp only [registerIndex?, findIdx?_eq_none_iff, beq_eq_false_iff_ne]
  exact ⟨fun h r hr => h _ hr rfl, fun h e he heq => h e.1 (heq ▸ he)⟩

theorem mem_of_registerIndex? {i : Nat} (h : registerIndex? regs o = some i) :
    ∃ r, ((r, o), i) ∈ regs.zipIdx := by
  obtain ⟨hi, heq, -⟩ := findIdx?_eq_some_iff_getElem.mp h
  rw [beq_iff_eq] at heq
  refine ⟨regs[i].1, mem_zipIdx_iff_getElem?.mpr ?_⟩
  rw [getElem?_eq_getElem hi, ← heq]

end Numbers

/-! ### Renamed operations -/

/-- The operand that stands for a source when the registers have versions `ρ`. -/
def renamed (regs : List (GuestReg × OperandId)) (ρ : Nat → OperandId) (o : OperandId) :
    OperandId :=
  match registerIndex? regs o with
  | some i => ρ i
  | none => o

section Renamed

variable (regs : List (GuestReg × OperandId)) (version : Nat → OperandId → Prop)

def Loads (q : Program) (ρ : Nat → OperandId) (loads : List OpId) : Prop :=
  List.Forall₂ (fun l e => q.stmt l = ⟨.loadContext (.register e.1.1), some (ρ e.2), []⟩) loads
    regs.zipIdx ∧ ∀ e ∈ regs.zipIdx, version e.2 (ρ e.2)

/-- How an operation with destination `dest` changes the versions, and what it writes instead. -/
inductive Defines (ρ : Nat → OperandId) (dest : Option OperandId) :
    Option OperandId → (Nat → OperandId) → Prop
  | keep (h : dest.bind (registerIndex? regs) = none) : Defines ρ dest dest ρ
  | define {i : Nat} {v : OperandId} (h : dest.bind (registerIndex? regs) = some i)
      (hversion : version i v) : Defines ρ dest (some v) (update ρ i v)

/-- What an operation that does `s` before renaming does after it, with the loads that follow it. -/
inductive Renames (s : Stmt) (q : Program) (id : OpId) (ρ : Nat → OperandId) :
    List OpId → (Nat → OperandId) → Prop
  | plain {ρ' : Nat → OperandId} {dest : Option OperandId}
      (hsync : s.inst.synchronizesContext = false)
      (hdefines : Defines regs version ρ s.dest dest ρ')
      (hstmt : q.stmt id = ⟨s.inst, dest, s.sources.map (renamed regs ρ)⟩) :
      Renames s q id ρ [] ρ'
  | sync {ρ' : Nat → OperandId} {loads : List OpId}
      (hsync : s.inst.synchronizesContext = true) (hloads : Loads regs version q ρ' loads)
      (hstmt : q.stmt id = ⟨s.inst, s.dest, s.sources.map (renamed regs ρ)⟩) :
      Renames s q id ρ loads ρ'

/-- The operations of a block of `p` and those of `q` in their place, from versions `ρ` on, where
`Before` says what stands in front of an operation. -/
inductive Body (p q : Program) (Before : (Nat → OperandId) → OpId → List OpId → Prop) :
    (ρ : Nat → OperandId) → List OpId → List OpId → (ρ' : Nat → OperandId) → Prop
  | nil (ρ : Nat → OperandId) : Body p q Before ρ [] [] ρ
  | cons {ρ ρ' ρ'' : Nat → OperandId} {id : OpId} {stores loads ids ids' : List OpId}
      (hbefore : Before ρ id stores)
      (hrenames : Renames regs version (p.stmt id) q id ρ loads ρ')
      (hrest : Body p q Before ρ' ids ids' ρ'') :
      Body p q Before ρ (id :: ids) (stores ++ id :: (loads ++ ids')) ρ''

end Renamed

section Renamed

variable {regs : List (GuestReg × OperandId)} {version : Nat → OperandId → Prop} {p q : Program}
  {ρ ρ' : Nat → OperandId} {ids ids' loads : List OpId} {x id : OpId} {s : Stmt}
  {version' : Nat → OperandId → Prop} {q' : Program}
  {Before : (Nat → OperandId) → OpId → List OpId → Prop} {o : OperandId}

theorem exists_of_forall₂ {α β : Type} {R : α → β → Prop} {l : List α} {u : List β}
    (h : List.Forall₂ R l u) {a : α} (ha : a ∈ l) : ∃ b ∈ u, R a b := by
  induction h with
  | nil => cases ha
  | @cons a' b' l u hr _ ih =>
    rcases mem_cons.mp ha with rfl | ha
    · exact ⟨b', .head _, hr⟩
    · obtain ⟨b, hb, hr⟩ := ih ha
      exact ⟨b, .tail _ hb, hr⟩

theorem Loads.inst_eq (h : Loads regs version q ρ loads) (hx : x ∈ loads) :
    ∃ r, (q.stmt x).inst = .loadContext (.register r) := by
  obtain ⟨e, -, he⟩ := exists_of_forall₂ h.1 hx
  exact ⟨e.1.1, by rw [he]⟩

section

variable (h : Renames regs version s q id ρ loads ρ')

include h

theorem Renames.inst_eq : (q.stmt id).inst = s.inst := by
  cases h with
  | plain _ _ hstmt => rw [hstmt]
  | sync _ _ hstmt => rw [hstmt]

theorem Renames.load_eq (hx : x ∈ loads) : ∃ r, (q.stmt x).inst = .loadContext (.register r) := by
  cases h with
  | plain _ _ _ => cases hx
  | sync _ hloads _ => exact hloads.inst_eq hx

omit h in
theorem Loads.mono (h : Loads regs version q ρ loads)
    (hversion : ∀ i v, version i v → version' i v) (hstmt : ∀ x ∈ loads, q'.stmt x = q.stmt x) :
    Loads regs version' q' ρ loads := by
  refine ⟨?_, fun e he => hversion _ _ (h.2 e he)⟩
  exact forall₂_imp_mem h.1 fun l hl e _ heq => (hstmt l hl).trans heq

theorem Renames.mono (hversion : ∀ i v, version i v → version' i v) (hid : q'.stmt id = q.stmt id)
    (hstmt : ∀ x ∈ loads, q'.stmt x = q.stmt x) :
    Renames regs version' s q' id ρ loads ρ' := by
  cases h with
  | plain hsync hdefines hs =>
    refine .plain hsync ?_ (hid.trans hs)
    cases hdefines with
    | keep h => exact .keep h
    | define h hv => exact .define h (hversion _ _ hv)
  | sync hsync hloads hs => exact .sync hsync (hloads.mono hversion hstmt) (hid.trans hs)

theorem Renames.versions (hρ : ∀ e ∈ regs.zipIdx, version e.2 (ρ e.2)) :
    ∀ e ∈ regs.zipIdx, version e.2 (ρ' e.2) := by
  cases h with
  | sync _ hloads _ => exact hloads.2
  | plain _ hdefines _ =>
    cases hdefines with
    | keep _ => exact hρ
    | define _ hversion =>
      intro e he
      rw [Function.update_apply]
      split
      · next heq => exact heq ▸ hversion
      · exact hρ e he

/-- What replaces a register as destination is a version of it. -/
theorem Renames.dest
    (hsync : s.inst.synchronizesContext = true → s.dest.bind (registerIndex? regs) = none)
    {i : Nat} (hi : s.dest.bind (registerIndex? regs) = some i) :
    ∃ v, (q.stmt id).dest = some v ∧ version i v := by
  cases h with
  | sync hs _ _ =>
    rw [hsync hs] at hi
    cases hi
  | plain _ hdefines hstmt =>
    cases hdefines with
    | keep h =>
      rw [h] at hi
      cases hi
    | define h hversion =>
      rw [h] at hi
      cases hi
      exact ⟨_, by rw [hstmt], hversion⟩

end

section

variable (hbody : Body regs version p q Before ρ ids ids' ρ')

include hbody

theorem Body.mono {Before' : (Nat → OperandId) → OpId → List OpId → Prop}
    (hversion : ∀ i v, version i v → version' i v) (hstmt : ∀ x ∈ ids', q'.stmt x = q.stmt x)
    (hbefore : ∀ ρ, ∀ id ∈ ids, ∀ stores, Before ρ id stores → Before' ρ id stores) :
    Body regs version' p q' Before' ρ ids ids' ρ' := by
  induction hbody with
  | nil ρ => exact .nil ρ
  | cons hstores hrenames hrest ih =>
    refine .cons (hbefore _ _ (.head _) _ hstores)
      (hrenames.mono hversion (hstmt _ (by simp)) fun x hx => hstmt x (by simp [hx]))
      (ih (fun x hx => hstmt x (by simp [hx]))
        fun ρ id hid stores => hbefore ρ id (.tail _ hid) stores)

theorem Body.not_phi (hids : ∀ id ∈ ids, (p.stmt id).inst ≠ .phi)
    (hbefore : ∀ ρ id stores, Before ρ id stores → ∀ x ∈ stores, (q.stmt x).inst ≠ .phi)
    (hx : x ∈ ids') : (q.stmt x).inst ≠ .phi := by
  induction hbody with
  | nil ρ => cases hx
  | @cons ρ ρ₁ ρ₂ id stores loads ids ids' hstores hrenames hrest ih =>
    rw [mem_append, mem_cons, mem_append] at hx
    rcases hx with hx | rfl | hx | hx
    · exact hbefore _ _ _ hstores x hx
    · rw [hrenames.inst_eq]
      exact hids x (.head _)
    · obtain ⟨r, hr⟩ := hrenames.load_eq hx
      simp [hr]
    · exact ih (fun y hy => hids y (.tail _ hy)) hx

/-- A register that no operation defines keeps its version. -/
theorem Body.keeps {e : (GuestReg × OperandId) × Nat} (he : e ∈ regs.zipIdx)
    (hnot : ∀ id ∈ ids, (p.stmt id).inst.synchronizesContext = false ∧
      (p.stmt id).dest ≠ some e.1.2) : ρ' e.2 = ρ e.2 := by
  induction hbody with
  | nil ρ => rfl
  | @cons ρ ρ₁ ρ₂ id stores loads ids ids' hstores hrenames hrest ih =>
    rw [ih fun x hx => hnot x (.tail _ hx)]
    obtain ⟨hsync, hdest⟩ := hnot id (.head _)
    cases hrenames with
    | sync hsync' _ _ =>
      rw [hsync] at hsync'
      cases hsync'
    | plain _ hdefines _ =>
      cases hdefines with
      | keep _ => rfl
      | @define i v hi hversion =>
        obtain ⟨d, hd, hi⟩ := Option.bind_eq_some_iff.mp hi
        obtain ⟨r, hr⟩ := mem_of_registerIndex? hi
        refine update_of_ne (fun heq => hdest ?_) _ _
        rw [zipIdx_inj he hr heq]
        exact hd

end

/-- The versions that an operation of the source finds. -/
theorem Body.point (hbody : Body regs version p q Before ρ ids ids' ρ')
    (hρ : ∀ e ∈ regs.zipIdx, version e.2 (ρ e.2)) (hid : id ∈ ids) :
    ∃ ρ₁ ρ₂ stores loads, Before ρ₁ id stores ∧ (∀ e ∈ regs.zipIdx, version e.2 (ρ₁ e.2)) ∧
      Renames regs version (p.stmt id) q id ρ₁ loads ρ₂ ∧ id ∈ ids' := by
  induction hbody with
  | nil ρ => cases hid
  | @cons ρ ρ₁ ρ₂ x stores loads ids ids' hstores hrenames hrest ih =>
    rcases mem_cons.mp hid with rfl | hid
    · exact ⟨ρ, ρ₁, stores, loads, hstores, hρ, hrenames, by simp⟩
    · obtain ⟨ρ₃, ρ₄, stores', loads', hbefore, hversion, hpoint, hmem⟩ :=
        ih (hrenames.versions hρ) hid
      exact ⟨ρ₃, ρ₄, stores', loads', hbefore, hversion, hpoint, by simp [hmem]⟩

/-- An operand that is a version or no register. -/
def Settled (regs : List (GuestReg × OperandId)) (version : Nat → OperandId → Prop)
    (o : OperandId) : Prop :=
  (∃ i, version i o) ∨ registerIndex? regs o = none

section

variable (hρ : ∀ e ∈ regs.zipIdx, version e.2 (ρ e.2))

include hρ

theorem settled_renamed (o : OperandId) : Settled regs version (renamed regs ρ o) := by
  unfold renamed
  cases hi : registerIndex? regs o with
  | none => exact .inr hi
  | some i =>
    obtain ⟨r, hr⟩ := mem_of_registerIndex? hi
    exact .inl ⟨i, hρ _ hr⟩

/-- Renamed operations mention no registers. -/
theorem Renames.settled (h : Renames regs version s q id ρ loads ρ')
    (hsync : s.inst.synchronizesContext = true → s.dest.bind (registerIndex? regs) = none)
    (hx : x ∈ id :: loads) (ho : o ∈ (q.stmt x).sources ∨ (q.stmt x).dest = some o) :
    Settled regs version o := by
  have hkeep : s.dest.bind (registerIndex? regs) = none → s.dest = some o →
      Settled regs version o := by
    intro hbind hd
    rw [hd] at hbind
    exact .inr hbind
  have hsources : o ∈ s.sources.map (renamed regs ρ) → Settled regs version o := by
    intro hmem
    obtain ⟨o', -, rfl⟩ := mem_map.mp hmem
    exact settled_renamed hρ o'
  cases h with
  | plain _ hdefines hstmt =>
    obtain rfl := mem_singleton.mp hx
    rw [hstmt] at ho
    rcases ho with ho | ho
    · exact hsources ho
    · cases hdefines with
      | keep h => exact hkeep h ho
      | define _ hversion =>
        cases ho
        exact .inl ⟨_, hversion⟩
  | sync hs hloads hstmt =>
    rcases mem_cons.mp hx with rfl | hx
    · rw [hstmt] at ho
      rcases ho with ho | ho
      · exact hsources ho
      · exact hkeep (hsync hs) ho
    · obtain ⟨e, he, heq⟩ := exists_of_forall₂ hloads.1 hx
      rw [heq] at ho
      rcases ho with ho | ho
      · cases ho
      · cases ho
        exact .inl ⟨_, hloads.2 e he⟩

theorem Body.settled (hbody : Body regs version p q Before ρ ids ids' ρ')
    (hsync : ∀ id ∈ ids, (p.stmt id).inst.synchronizesContext = true →
      (p.stmt id).dest.bind (registerIndex? regs) = none)
    (hbefore : ∀ ρ id stores, Before ρ id stores → stores = []) (hx : x ∈ ids')
    (ho : o ∈ (q.stmt x).sources ∨ (q.stmt x).dest = some o) :
    Settled regs version o := by
  induction hbody with
  | nil ρ => cases hx
  | @cons ρ ρ₁ ρ₂ id stores loads ids ids' hstores hrenames hrest ih =>
    rw [hbefore _ _ _ hstores, nil_append, ← cons_append] at hx
    rcases mem_append.mp hx with hx | hx
    · exact hrenames.settled hρ (hsync id (.head _)) hx ho
    · exact ih (hrenames.versions hρ) (fun y hy => hsync y (.tail _ hy)) hx

end

end Renamed

/-- A program with registers, one with versions in their place, and how they correspond. -/
structure Versioning where
  source : Program
  target : Program
  regs : List (GuestReg × OperandId)
  /-- Operands below this number are those of the source. -/
  bound : Nat
  /-- The version that a register has when a block is entered, after its phis. -/
  incoming : BlockId → Nat → OperandId
  /-- The version that a register has at the end of a block. -/
  outgoing : BlockId → Nat → OperandId
  /-- The versions of each register. -/
  version : Nat → OperandId → Prop
  /-- Versions that the context may not hold. -/
  dirty : OperandId → Bool

namespace Versioning

variable (V : Versioning)

/-- What stands before an operation: stores of the dirty versions, where the host looks at the
context or control leaves. -/
def Stores (ρ : Nat → OperandId) (id : OpId) (stores : List OpId) : Prop :=
  List.Forall₂ (fun s e =>
    V.target.stmt s = ⟨.storeContext (.register e.1.1), none, [ρ e.2]⟩) stores
    (if (V.source.stmt id).inst.synchronizesContext || (V.source.stmt id).inst.leavesFunction then
      V.regs.zipIdx.filter fun e => V.dirty (ρ e.2)
    else [])

def phi (b : BlockId) (i : Nat) : Stmt :=
  ⟨.phi, some (V.incoming b i), (V.target.preds b).map (V.outgoing · i)⟩

/-- The operations of a block: phis, loads of all registers at the entry, and the rest. -/
structure Block (b : BlockId) (phis loads body : List OpId) : Prop where
  code : V.target.code b = phis ++ (loads ++ body)
  phis : ∀ id ∈ phis, ∃ e ∈ V.regs.zipIdx, V.target.stmt id = V.phi b e.2
  loads : if b = Function.entry then Loads V.regs V.version V.target (V.incoming b) loads
    else loads = []
  body : Body V.regs V.version V.source V.target V.Stores (V.incoming b) (V.source.code b) body
    (V.outgoing b)

theorem Block.load_inst {V : Versioning} {b : BlockId} {phis loads body : List OpId} {x : OpId}
    (h : V.Block b phis loads body) (hx : x ∈ loads) :
    ∃ r, (V.target.stmt x).inst = .loadContext (.register r) := by
  have hloads := h.loads
  split at hloads
  · exact hloads.inst_eq hx
  · rw [hloads] at hx
    cases hx

structure Sound (reachable : BlockId → Prop) : Prop where
  kind : ∀ o : OperandId, o.index < V.bound → V.target.kind o = V.source.kind o
  ty : ∀ o : OperandId, o.index < V.bound → V.target.ty o = V.source.ty o
  version : ∀ i v, V.version i v → V.bound ≤ v.index ∧ ∃ k, V.target.kind v = .local_ k
  version_inj : ∀ i j v, V.version i v → V.version j v → i = j
  version_ty : ∀ e ∈ V.regs.zipIdx, ∀ v, V.version e.2 v → V.target.ty v = V.source.ty e.1.2
  incoming : ∀ b, reachable b → ∀ e ∈ V.regs.zipIdx, V.version e.2 (V.incoming b e.2)
  outgoing : ∀ b, reachable b → ∀ e ∈ V.regs.zipIdx, V.version e.2 (V.outgoing b e.2)
  blocks : ∀ b, reachable b → ∃ phis loads body, V.Block b phis loads body
  entry : reachable Function.entry
  not_entry : ∀ b, reachable b → Function.entry ∉ V.source.successors b
  /-- Where control may go, a register has a phi or keeps its version. -/
  edge : ∀ b c, reachable b → c ∈ V.source.successors b → reachable c ∧ b ∈ V.target.preds c ∧
    ∀ e ∈ V.regs.zipIdx, (∃ id ∈ V.target.code c, V.target.stmt id = V.phi c e.2) ∨
      V.incoming c e.2 = V.outgoing b e.2
  /-- A phi is dirty if a version that reaches it is. -/
  dirty : ∀ b c, reachable b → c ∈ V.source.successors b → ∀ e ∈ V.regs.zipIdx,
    V.dirty (V.outgoing b e.2) = true → V.dirty (V.incoming c e.2) = true
  /-- A version that an operation computes is dirty. -/
  defined : ∀ b, reachable b → ∀ id ∈ V.source.code b, ∀ i v,
    (V.source.stmt id).dest.bind (registerIndex? V.regs) = some i →
    (V.target.stmt id).dest = some v → V.dirty v = true
  operands : ∀ b, reachable b → ∀ id ∈ V.source.code b,
    (∀ o ∈ (V.source.stmt id).sources, o.index < V.bound) ∧
      ∀ o, (V.source.stmt id).dest = some o → o.index < V.bound

/-! ### The relation between the runs -/

/-- What the source program and the bits that count have to satisfy. -/
structure Admits (mask : GuestReg → UInt64) (reachable : BlockId → Prop) : Prop where
  register : ∀ o r, o.index < V.bound → (V.source.kind o = .register r ↔ (r, o) ∈ V.regs)
  nodup : (V.regs.map Prod.fst).Nodup
  valid : ∀ e ∈ V.regs, e.1.Valid
  width : ∀ e ∈ V.regs, (V.source.ty e.2).mask &&& e.1.width = (V.source.ty e.2).mask
  mask : ∀ e ∈ V.regs, ∀ c : Context, c.get (.register e.1) &&& mask e.1 =
    c.get (.register e.1) &&& (V.source.ty e.2).mask
  constant : ∀ o v, o.index < V.bound → V.source.kind o = .constant v →
    v &&& (V.source.ty o).mask = v
  admissible : ∀ b, reachable b → ∀ id ∈ V.source.code b, V.source.Admissible (V.source.stmt id)
  terminated : ∀ b, reachable b → V.source.Terminated (V.source.code b)

variable {ω : Type} (host : Host ω) (mask : GuestReg → UInt64) (Close : ω → ω → Prop)

def AgreeAt (r : GuestReg) (σ σ' : State ω) : Prop :=
  (host.context σ.world).get (.register r) &&& mask r =
    (host.context σ'.world).get (.register r) &&& mask r

/-- The states of the two programs at a point where the registers have versions `ρ`. -/
structure Rel (ρ : Nat → OperandId) (σ σ' : State ω) : Prop where
  version : ∀ e ∈ V.regs.zipIdx, V.version e.2 (ρ e.2)
  value : ∀ e ∈ V.regs.zipIdx, σ'.locals (ρ e.2) =
    (host.context σ.world).get (.register e.1.1) &&& (V.source.ty e.1.2).mask
  clean : ∀ e ∈ V.regs.zipIdx, V.dirty (ρ e.2) = false → AgreeAt host mask e.1.1 σ σ'
  others : ∀ r, r.Valid → r ∉ V.regs.map Prod.fst → AgreeAt host mask r σ σ'
  close : Close σ.world σ'.world
  locals : ∀ o, o.index < V.bound → σ'.locals o = σ.locals o
  fits : ∀ o, o.index < V.bound → σ.locals o &&& (V.source.ty o).mask = σ.locals o

end Versioning

namespace Versioning

variable {V : Versioning} {ω : Type} {host : Host ω} {mask : GuestReg → UInt64}
  {Close : ω → ω → Prop} {reachable : BlockId → Prop} {ρ ρ' : Nat → OperandId} {σ σ' : State ω}
  {e : (GuestReg × OperandId) × Nat} {o v : OperandId} {s s' : Stmt} {p : Program} {site : Site}
  {field : Field} {k visit : Nat} {stores loads : List OpId}
  {es : List ((GuestReg × OperandId) × Nat)} {w w' : ω} {dest : Option OperandId} {value : UInt64}
  {id : OpId} {b c : BlockId}

theorem mem_regs (he : e ∈ V.regs.zipIdx) : e.1 ∈ V.regs :=
  fst_mem_of_mem_zipIdx he

/-! ### Stores and loads of registers -/

theorem execute_store (hstmt : p.stmt site.op = ⟨.storeContext field, none, [v]⟩) :
    p.execute host site σ = { σ with world := host.put field (p.read host σ v) σ.world } := by
  simp [execute, hstmt, Host.perform, Instruction.request?, Program.argument]

theorem execute_load (hstmt : p.stmt site.op = ⟨.loadContext field, some v, []⟩)
    (hkind : p.kind v = .local_ k) :
    p.execute host site σ = σ.set v ((host.context σ.world).get field &&& (p.ty v).mask) := by
  simp [execute, hstmt, Host.perform, Instruction.request?, assign, hkind, destTy]

variable (hs : V.Sound reachable) (ha : V.Admits mask reachable)

include hs ha

omit ha in
/-- Loads of all registers establish the relation between states that agree. -/
theorem runLoads (hloads : List.Forall₂ (fun l e =>
      V.target.stmt l = ⟨.loadContext (.register e.1.1), some (ρ e.2), []⟩) loads es)
    (hversion : ∀ e ∈ V.regs.zipIdx, V.version e.2 (ρ e.2)) (hes : ∀ e ∈ es, e ∈ V.regs.zipIdx)
    (hnodup : es.Nodup) (σ' : State ω) :
    ∃ σ'', (∀ rest, V.target.runCode host visit (loads ++ rest) σ' =
        V.target.runCode host visit rest σ'') ∧ σ''.world = σ'.world ∧
      (∀ e ∈ es, σ''.locals (ρ e.2) =
        (host.context σ'.world).get (.register e.1.1) &&& (V.source.ty e.1.2).mask) ∧
      ∀ o, (∀ e ∈ es, o ≠ ρ e.2) → σ''.locals o = σ'.locals o := by
  induction hloads generalizing σ' with
  | nil => exact ⟨σ', fun _ => rfl, rfl, forall_mem_nil _, fun _ _ => rfl⟩
  | @cons l e loads es hstmt hrest ih =>
    rw [nodup_cons] at hnodup
    have he := hes e mem_cons_self
    obtain ⟨-, k, hk⟩ := hs.version _ _ (hversion e he)
    obtain ⟨σ'', hrun, hworld, hvalue, hframe⟩ :=
      ih (fun e' he' => hes e' (mem_cons_of_mem _ he')) hnodup.2
        (σ'.set (ρ e.2)
          ((host.context σ'.world).get (.register e.1.1) &&& (V.target.ty (ρ e.2)).mask))
    refine ⟨σ'', fun rest => ?_, hworld, ?_, ?_⟩
    · have hflow : V.target.flow? host σ' l = none := by simp [flow?, hstmt]
      rw [cons_append, runCode, hflow]
      simp only
      rw [execute_load hstmt hk]
      exact hrun rest
    · intro e' he'
      rcases mem_cons.mp he' with rfl | he'
      · rw [hframe, State.locals_set_self, hs.version_ty _ he _ (hversion _ he)]
        -- a version belongs to one register, so no later load overwrites it
        intro e'' he'' heq
        have hidx := hs.version_inj _ _ _ (hversion _ he)
          (heq ▸ hversion e'' (hes e'' (mem_cons_of_mem _ he'')))
        have := zipIdx_inj he (hes e'' (mem_cons_of_mem _ he'')) hidx
        exact hnodup.1 (this ▸ he'')
      · exact hvalue e' he'
    · intro o ho
      rw [hframe o fun e' he' => ho e' (mem_cons_of_mem _ he')]
      exact σ'.locals_set_of_ne (ho e mem_cons_self) _

/-- Loading all registers relates states whose contexts agree. -/
theorem Rel.reload (visit : Nat) (hloads : Loads V.regs V.version V.target ρ loads) (σ σ' : State ω)
    (hclose : Close σ.world σ'.world)
    (hagree : (host.context σ.world).Agree mask (host.context σ'.world))
    (hlocals : ∀ o, o.index < V.bound → σ'.locals o = σ.locals o)
    (hfits : ∀ o, o.index < V.bound → σ.locals o &&& (V.source.ty o).mask = σ.locals o) :
    ∃ σ'', (∀ rest, V.target.runCode host visit (loads ++ rest) σ' =
        V.target.runCode host visit rest σ'') ∧ V.Rel host mask Close ρ σ σ'' := by
  obtain ⟨hforall, hversion⟩ := hloads
  obtain ⟨σ'', hrun, hworld, hvalue, hframe⟩ :=
    runLoads hs hforall hversion (fun _ he => he) nodup_zipIdx σ'
  refine ⟨σ'', hrun, hversion, ?_, ?_, ?_, ?_, ?_, hfits⟩
  · intro e he
    have hmem := mem_regs he
    rw [hvalue e he, ← ha.mask _ hmem, ← ha.mask _ hmem]
    exact (hagree _ (ha.valid _ hmem)).symm
  · intro e he _
    rw [AgreeAt, hworld]
    exact hagree _ (ha.valid _ (mem_regs he))
  · intro r hr _
    rw [AgreeAt, hworld]
    exact hagree r hr
  · rw [hworld]
    exact hclose
  · intro o ho
    rw [hframe o, hlocals o ho]
    rintro e he rfl
    exact absurd ho (hs.version _ _ (hversion e he)).1.not_gt

section

variable (h : V.Rel host mask Close ρ σ σ')

include h

/-! ### Related states -/

/-- A source has the same value in both states. -/
theorem Rel.read (ho : o.index < V.bound) :
    V.target.read host σ' (renamed V.regs ρ o) = V.source.read host σ o := by
  unfold renamed
  cases hi : registerIndex? V.regs o with
  | none =>
    have hreg := registerIndex?_eq_none.mp hi
    simp only [Program.read, hs.kind o ho]
    cases hk : V.source.kind o with
    | local_ k => exact h.locals o ho
    | constant v => rfl
    | register r => exact absurd ((ha.register o r ho).mp hk) (hreg r)
    | undefined => rfl
  | some i =>
    obtain ⟨r, hr⟩ := mem_of_registerIndex? hi
    have hk := (ha.register o r ho).mpr (mem_regs hr)
    obtain ⟨-, k, hk'⟩ := hs.version _ _ (h.version _ hr)
    simp only [Program.read, hk, hk']
    exact h.value _ hr

omit ha in
theorem Rel.rename_ty (ho : o.index < V.bound) :
    V.target.ty (renamed V.regs ρ o) = V.source.ty o := by
  unfold renamed
  cases hi : registerIndex? V.regs o with
  | none => exact hs.ty o ho
  | some i =>
    obtain ⟨r, hr⟩ := mem_of_registerIndex? hi
    exact hs.version_ty _ hr _ (h.version _ hr)

omit hs in
/-- Every operand of the source program has a value of its type. -/
theorem Rel.read_fits (ho : o.index < V.bound) :
    V.source.read host σ o &&& (V.source.ty o).mask = V.source.read host σ o := by
  unfold Program.read
  cases hk : V.source.kind o with
  | local_ k => exact h.fits o ho
  | constant v => exact ha.constant o v ho hk
  | register r => exact Ty.mask_and_mask _ _
  | undefined => exact UInt64.zero_and

omit hs in
/-- A store of a version brings the context up to date. -/
theorem Rel.store (hb : host.RegisterBlind mask Close) (he : e ∈ V.regs.zipIdx) {σ'' : State ω}
    (hσ : σ'' = { σ' with world := host.put (.register e.1.1) (σ'.locals (ρ e.2)) σ'.world }) :
    V.Rel host mask Close ρ σ σ'' ∧ AgreeAt host mask e.1.1 σ σ'' ∧
      ∀ r, r.Valid → AgreeAt host mask r σ σ' → AgreeAt host mask r σ σ'' := by
  have hmem := mem_regs he
  have hvalue := h.value e he
  have hget : (host.context σ''.world).get (.register e.1.1) = σ'.locals (ρ e.2) := by
    rw [hσ, hb.context_put, Context.get_put_self, hvalue, UInt64.and_assoc, ha.width _ hmem]
  have hself : AgreeAt host mask e.1.1 σ σ'' := by
    rw [AgreeAt, ha.mask _ hmem, ha.mask _ hmem, hget, hvalue, Ty.mask_and_mask]
  have hkeep : ∀ r, r.Valid → AgreeAt host mask r σ σ' → AgreeAt host mask r σ σ'' := by
    intro r hr hagree
    by_cases hre : e.1.1 = r
    · exact hre ▸ hself
    · rw [AgreeAt, hσ, hb.context_put, Context.get_put_of_ne _ _ (ha.valid _ hmem) hr hre]
      exact hagree
  refine ⟨⟨h.version, ?_, ?_, ?_, ?_, ?_, h.fits⟩, hself, hkeep⟩
  · rw [hσ]
    exact h.value
  · intro e' he' hdirty
    exact hkeep _ (ha.valid _ (mem_regs he')) (h.clean e' he' hdirty)
  · intro r hr hnot
    exact hkeep r hr (h.others r hr hnot)
  · rw [hσ]
    exact hb.put_right _ _ h.close
  · rw [hσ]
    exact h.locals

/-- Stores of some registers keep the relation and make the contexts agree on them. -/
theorem Rel.runStores (hb : host.RegisterBlind mask Close) (hstores : List.Forall₂ (fun s e =>
      V.target.stmt s = ⟨.storeContext (.register e.1.1), none, [ρ e.2]⟩) stores es)
    (hes : ∀ e ∈ es, e ∈ V.regs.zipIdx) :
    ∃ σ'', (∀ rest, V.target.runCode host visit (stores ++ rest) σ' =
        V.target.runCode host visit rest σ'') ∧ V.Rel host mask Close ρ σ σ'' ∧
      (∀ e ∈ es, AgreeAt host mask e.1.1 σ σ'') ∧
      ∀ r, r.Valid → AgreeAt host mask r σ σ' → AgreeAt host mask r σ σ'' := by
  induction hstores generalizing σ' with
  | nil => exact ⟨σ', fun _ => rfl, h, forall_mem_nil _, fun _ _ hr => hr⟩
  | @cons s e stores es hstmt hrest ih =>
    have he := hes e (.head _)
    obtain ⟨-, k, hk⟩ := hs.version _ _ (h.version e he)
    have hread : V.target.read host σ' (ρ e.2) = σ'.locals (ρ e.2) := by
      rw [Program.read, hk]
    obtain ⟨hrel, hself, hkeep⟩ := h.store ha hb he rfl
    obtain ⟨σ'', hrun, hrel', hagree, hkeep'⟩ := ih hrel fun e' he' => hes e' (.tail _ he')
    refine ⟨σ'', fun rest => ?_, hrel', ?_, fun r hr hr' => hkeep' r hr (hkeep r hr hr')⟩
    · have hflow : V.target.flow? host σ' s = none := by simp [flow?, hstmt]
      rw [cons_append, runCode, hflow]
      rw [execute_store hstmt, hread]
      exact hrun rest
    · intro e' he'
      rcases mem_cons.mp he' with rfl | he'
      · exact hkeep' _ (ha.valid _ (mem_regs he)) hself
      · exact hagree e' he'

omit hs ha in
/-- Where the dirty registers have been stored the contexts agree. -/
theorem Rel.agree
    (hdirty : ∀ e ∈ V.regs.zipIdx, V.dirty (ρ e.2) = true → AgreeAt host mask e.1.1 σ σ') :
    (host.context σ.world).Agree mask (host.context σ'.world) := by
  intro r hr
  by_cases hmem : r ∈ V.regs.map Prod.fst
  · obtain ⟨e, he, rfl⟩ := mem_map.mp hmem
    obtain ⟨i, hi, rfl⟩ := mem_iff_getElem.mp he
    have hz := getElem_mem_zipIdx hi
    cases hd : V.dirty (ρ i) with
    | true => exact hdirty _ hz hd
    | false => exact h.clean _ hz hd
  · exact h.others r hr hmem

/-! ### One operation -/

omit hs ha in
/-- The relation looks at the worlds only through the registers and closeness. -/
theorem Rel.withWorld (hclose : Close w w')
    (hw : ∀ r, (host.context w).get (.register r) = (host.context σ.world).get (.register r))
    (hw' : ∀ r, (host.context w').get (.register r) = (host.context σ'.world).get (.register r)) :
    V.Rel host mask Close ρ { σ with world := w } { σ' with world := w' } := by
  have hagree : ∀ r, AgreeAt host mask r σ σ' →
      AgreeAt host mask r { σ with world := w } { σ' with world := w' } := by
    intro r hr
    rw [AgreeAt, hw, hw']
    exact hr
  refine ⟨h.version, ?_, fun e he hd => hagree _ (h.clean e he hd),
    fun r hr hnot => hagree _ (h.others r hr hnot), hclose, h.locals, h.fits⟩
  intro e he
  rw [hw]
  exact h.value e he

theorem Rel.assign_keep (hlt : ∀ o, dest = some o → o.index < V.bound)
    (hfits : ∀ o, dest = some o → value &&& (V.source.ty o).mask = value)
    (hkeep : dest.bind (registerIndex? V.regs) = none) :
    V.Rel host mask Close ρ (V.source.assign host dest value σ)
      (V.target.assign host dest value σ') := by
  cases dest with
  | none => exact h
  | some d =>
    have hd := hlt d rfl
    simp only [assign, hs.kind d hd]
    cases hk : V.source.kind d with
    | constant v => exact h
    | undefined => exact h
    | register r =>
      exact absurd ((ha.register d r hd).mp hk) (registerIndex?_eq_none.mp hkeep r)
    | local_ k =>
      -- versions are not operands of the source, so they keep their values
      have hne : ∀ e ∈ V.regs.zipIdx, ρ e.2 ≠ d := by
        rintro e he rfl
        exact absurd hd (hs.version _ _ (h.version e he)).1.not_gt
      refine ⟨h.version, ?_, h.clean, h.others, h.close, ?_, ?_⟩
      · intro e he
        rw [State.locals_set_of_ne _ (hne e he)]
        exact h.value e he
      · intro o ho
        by_cases hod : o = d
        · subst hod
          simp
        · rw [State.locals_set_of_ne _ hod, State.locals_set_of_ne _ hod, h.locals o ho]
      · intro o ho
        by_cases hod : o = d
        · subst hod
          rw [State.locals_set_self]
          exact hfits o rfl
        · rw [State.locals_set_of_ne _ hod]
          exact h.fits o ho

/-- A new version of a register holds what the source program puts into the context. -/
theorem Rel.assign_define (hb : host.RegisterBlind mask Close) {d : OperandId} {i : Nat}
    (hlt : d.index < V.bound) (hfits : value &&& (V.source.ty d).mask = value)
    (hi : registerIndex? V.regs d = some i) (hversion : V.version i v)
    (hdirty : V.dirty v = true) :
    V.Rel host mask Close (update ρ i v) (V.source.assign host (some d) value σ)
      (V.target.assign host (some v) value σ') := by
  obtain ⟨r, hr⟩ := mem_of_registerIndex? hi
  have hk := (ha.register d r hlt).mpr (mem_regs hr)
  obtain ⟨hbound, k, hk'⟩ := hs.version _ _ hversion
  simp only [assign, hk, hk']
  have hvalid := ha.valid _ (mem_regs hr)
  have hother : ∀ s : GuestReg, s.Valid → s ≠ r → AgreeAt host mask s σ σ' →
      AgreeAt host mask s ⟨σ.locals, host.put (.register r) value σ.world⟩ (σ'.set v value) := by
    intro s hs hne hagree
    rw [AgreeAt, hb.context_put, Context.get_put_of_ne _ _ hvalid hs hne.symm]
    exact hagree
  have hne : ∀ e ∈ V.regs.zipIdx, e.2 ≠ i → e.1.1 ≠ r := by
    intro e he hei heq
    exact hei (congrArg Prod.snd (zipIdx_eq_of_reg ha.nodup he hr heq))
  refine ⟨?_, ?_, ?_, ?_, hb.put_left _ _ h.close, ?_, h.fits⟩
  · intro e he
    by_cases hei : e.2 = i
    · rw [hei, update_self]
      exact hversion
    · rw [update_of_ne hei]
      exact h.version e he
  · intro e he
    rw [hb.context_put]
    by_cases hei : e.2 = i
    · obtain rfl := zipIdx_inj he hr hei
      rw [update_self, State.locals_set_self, Context.get_put_self, UInt64.and_assoc,
        UInt64.and_comm (GuestReg.width _), ha.width _ (mem_regs hr)]
      exact hfits.symm
    · rw [update_of_ne hei,
        Context.get_put_of_ne _ _ hvalid (ha.valid _ (mem_regs he)) (hne e he hei).symm,
        State.locals_set_of_ne]
      · exact h.value e he
      · intro heq
        exact hei (hs.version_inj _ _ _ (h.version e he) (heq ▸ hversion))
  · intro e he hd
    by_cases hei : e.2 = i
    · rw [hei, update_self, hdirty] at hd
      cases hd
    · rw [update_of_ne hei] at hd
      exact hother _ (ha.valid _ (mem_regs he)) (hne e he hei) (h.clean e he hd)
  · intro s hs hnot
    refine hother s hs ?_ (h.others s hs hnot)
    rintro rfl
    exact hnot (mem_map.mpr ⟨_, mem_regs hr, rfl⟩)
  · intro o ho
    rw [State.locals_set_of_ne]
    · exact h.locals o ho
    · rintro rfl
      exact absurd ho hbound.not_gt

variable (hsources : ∀ o ∈ (V.source.stmt id).sources, o.index < V.bound)
  (hstmt : V.target.stmt id = ⟨(V.source.stmt id).inst, dest,
    (V.source.stmt id).sources.map (renamed V.regs ρ)⟩)

include hsources hstmt

theorem Rel.argument (i : Nat) : V.target.argument host σ' (V.target.stmt id) i =
    V.source.argument host σ (V.source.stmt id) i :=
  argument_map (congrArg Stmt.sources hstmt) (fun o ho => h.read hs ha (hsources o ho)) i

omit ha in
theorem Rel.sourceTy :
    V.target.sourceTy (V.target.stmt id) = V.source.sourceTy (V.source.stmt id) :=
  sourceTy_map (congrArg Stmt.sources hstmt) fun o ho => h.rename_ty hs (hsources o ho)

theorem Rel.flow : V.target.flow? host σ' id = V.source.flow? host σ id := by
  have hargs := h.argument hs ha hsources hstmt 0
  have hsty := h.sourceTy hs hsources hstmt
  have hinst : (V.target.stmt id).inst = (V.source.stmt id).inst := by rw [hstmt]
  simp only [flow?, hargs, hsty, hinst]

variable (hb : host.RegisterBlind mask Close)

include hb

/-- An operation that does not synchronize, with the version it defines. -/
theorem Rel.plain (hadm : V.source.Admissible (V.source.stmt id))
    (hsync : (V.source.stmt id).inst.synchronizesContext = false)
    (hdest : ∀ o, (V.source.stmt id).dest = some o → o.index < V.bound)
    (hdefines : Defines V.regs V.version ρ (V.source.stmt id).dest dest ρ')
    (hdirty : ∀ i v, (V.source.stmt id).dest.bind (registerIndex? V.regs) = some i →
      (V.target.stmt id).dest = some v → V.dirty v = true) :
    V.Rel host mask Close ρ' (V.source.execute host ⟨visit, id⟩ σ)
      (V.target.execute host ⟨visit, id⟩ σ') := by
  have hargs := h.argument hs ha hsources hstmt
  have hsty := h.sourceTy hs hsources hstmt
  unfold execute
  dsimp only
  generalize V.source.stmt id = s at *
  generalize V.target.stmt id = t at *
  have hdty : V.target.destTy t = V.source.destTy s := by
    rw [hstmt]
    cases hdefines with
    | keep _ =>
      unfold destTy
      cases hd : s.dest with
      | none => rfl
      | some d => exact hs.ty d (hdest d hd)
    | define hi hversion =>
      obtain ⟨d, hd, hi⟩ := Option.bind_eq_some_iff.mp hi
      obtain ⟨r, hr⟩ := mem_of_registerIndex? hi
      simp only [destTy, hd]
      exact hs.version_ty _ hr _ hversion
  have hty : ∀ o, s.dest = some o → V.source.destTy s = V.source.ty o := by
    intro o ho
    rw [destTy, ho]
  have hinst : t.inst = s.inst := by rw [hstmt]
  have htdest : t.dest = dest := by rw [hstmt]
  simp only [hargs, hsty, hdty, hinst, htdest, if_neg hadm.not_phi]
  -- both worlds see the same instruction with the same arguments
  generalize ha0 : V.source.argument host σ s 0 = a
  generalize V.source.argument host σ s 1 = b
  generalize V.source.argument host σ s 2 = c
  generalize V.source.destTy s = ty at hty ⊢
  generalize V.source.sourceTy s = sty
  obtain ⟨hvalue, hclose⟩ :=
    hb.perform_close hsync hadm.not_load hadm.not_store h.close ⟨visit, id⟩ ty sty a b c
  have hkeeps := hb.perform_keeps hsync hadm.not_store ⟨visit, id⟩ ty sty a b c
  have hmid := h.withWorld hclose (hkeeps σ.world) (hkeeps σ'.world)
  have hcopy : s.inst = .copy → ∀ o, s.dest = some o → a &&& (V.source.ty o).mask = a := by
    intro hc o ho
    rw [← ha0, Program.argument]
    cases hsrc : s.sources[0]? with
    | none => exact UInt64.zero_and
    | some x =>
      rw [← hadm.copy hc o x ho hsrc]
      exact h.read_fits ha (hsources x (mem_of_getElem? hsrc))
  have hfits : ∀ v, (host.perform ⟨visit, id⟩ s.inst ty sty a b c σ.world).1 = some v →
      ∀ o, s.dest = some o → v &&& (V.source.ty o).mask = v := by
    intro v hv o ho
    rw [hty o ho] at hv
    exact Host.perform_fits hv fun hc => hcopy hc o ho
  generalize hp : host.perform ⟨visit, id⟩ s.inst ty sty a b c σ.world = result
    at hvalue hclose hmid hfits ⊢
  generalize host.perform ⟨visit, id⟩ s.inst ty sty a b c σ'.world = result' at hvalue hclose hmid ⊢
  obtain ⟨value, w⟩ := result
  obtain ⟨value', w'⟩ := result'
  cases hvalue
  cases hdefines with
  | keep hkeep =>
    cases value with
    | none => exact hmid
    | some v => exact hmid.assign_keep hs ha hdest (hfits v rfl) hkeep
  | @define i version hi hversion =>
    have hdirty := hdirty i version hi htdest
    obtain ⟨d, hd, hi⟩ := Option.bind_eq_some_iff.mp hi
    have hlt := hdest d hd
    obtain ⟨r, hr⟩ := mem_of_registerIndex? hi
    have hk := (ha.register d r hlt).mpr (mem_regs hr)
    obtain ⟨v, w₁, hsome⟩ := host.perform_isSome (hadm.dest d r hd hk).1 _ _ _ _ _ _ _
    rw [hp] at hsome
    cases hsome
    rw [hd]
    exact hmid.assign_define hs ha hb hlt (hfits v rfl d hd) hi hversion hdirty

/-- A call at which the host may look at the registers, with stores before it and loads after it. -/
theorem Rel.sync (visit : Nat) (hsync : (V.source.stmt id).inst.synchronizesContext = true)
    (hagree : (host.context σ.world).Agree mask (host.context σ'.world)) :
    ∃ w w', V.source.execute host ⟨visit, id⟩ σ = { σ with world := w } ∧
      V.target.execute host ⟨visit, id⟩ σ' = { σ' with world := w' } ∧ Close w w' ∧
      (host.context w).Agree mask (host.context w') := by
  have hargs := h.argument hs ha hsources hstmt
  have hinst : (V.target.stmt id).inst = (V.source.stmt id).inst := by rw [hstmt]
  obtain ⟨kind, hperform⟩ := Host.perform_sync host hsync
  have hphi : (V.source.stmt id).inst ≠ .phi := by
    intro hphi
    rw [hphi] at hsync
    cases hsync
  obtain ⟨hclose, hagree⟩ := hb.call ⟨visit, id⟩
    (.call kind (V.source.argument host σ (V.source.stmt id) 0)
      (V.source.argument host σ (V.source.stmt id) 1).toUInt32) h.close rfl hagree
  refine ⟨_, _, ?_, ?_, hclose, hagree⟩
  · simp only [execute, if_neg hphi, hperform]
  · simp only [execute, hinst, if_neg hphi, hperform, hargs]

end

/-- The states at the end of a block: related for the block that follows, or with contexts that
agree where control leaves. -/
def Ended (V : Versioning) (host : Host ω) (mask : GuestReg → UInt64) (Close : ω → ω → Prop)
    (ρ : Nat → OperandId) (flow : Flow) (σ σ' : State ω) : Prop :=
  match flow with
  | .goto _ => V.Rel host mask Close ρ σ σ'
  | .leave _ => Close σ.world σ'.world ∧ (host.context σ.world).Agree mask (host.context σ'.world)

theorem Stores.run (hb : host.RegisterBlind mask Close) (hstores : V.Stores ρ id stores)
    (visit : Nat) (h : V.Rel host mask Close ρ σ σ') :
    ∃ σ'', (∀ rest, V.target.runCode host visit (stores ++ rest) σ' =
        V.target.runCode host visit rest σ'') ∧ V.Rel host mask Close ρ σ σ'' ∧
      ((V.source.stmt id).inst.synchronizesContext = true ∨
        (V.source.stmt id).inst.leavesFunction = true →
        (host.context σ.world).Agree mask (host.context σ''.world)) := by
  obtain ⟨σ'', hrun, hrel, hagree, -⟩ := h.runStores hs ha hb hstores fun e he =>
    mem_of_mem_filter (mem_ite_nil_right.mp he).2
  refine ⟨σ'', hrun, hrel, fun hlooks => hrel.agree fun e he hd => hagree e ?_⟩
  rw [if_pos (by simpa using hlooks)]
  exact mem_filter.mpr ⟨he, hd⟩

/-- A block body ends in the same way in both programs. -/
theorem runBody (hb : host.RegisterBlind mask Close) {ids ids' : List OpId}
    (hbody : Body V.regs V.version V.source V.target V.Stores ρ ids ids' ρ')
    (hterm : V.source.Terminated ids) (hadm : ∀ id ∈ ids, V.source.Admissible (V.source.stmt id))
    (hops : ∀ id ∈ ids, (∀ o ∈ (V.source.stmt id).sources, o.index < V.bound) ∧
      ∀ o, (V.source.stmt id).dest = some o → o.index < V.bound)
    (hdirty : ∀ id ∈ ids, ∀ i v, (V.source.stmt id).dest.bind (registerIndex? V.regs) = some i →
      (V.target.stmt id).dest = some v → V.dirty v = true) (h : V.Rel host mask Close ρ σ σ') :
    ∃ flow τ τ', V.source.runCode host visit ids σ = (some flow, τ) ∧
      V.target.runCode host visit ids' σ' = (some flow, τ') ∧
      V.Ended host mask Close ρ' flow τ τ' := by
  induction hbody generalizing σ σ' with
  | nil ρ => exact hterm.elim
  | @cons ρ ρ₁ ρ₂ id stores loads ids ids' hstores hrenames hrest ih =>
    obtain ⟨hsources, hdest⟩ := hops id (.head _)
    have hid := hadm id (.head _)
    obtain ⟨σ'', hrun, hrel, hagree⟩ := Stores.run hs ha hb hstores visit h
    cases hrenames with
    | @plain _ dest hsync hdefines hstmt =>
      have hflow := hrel.flow hs ha hsources hstmt
      rw [hrun, runCode, runCode, hflow]
      cases hf : V.source.flow? host σ id with
      | none =>
        exact ih (hterm.tail (isTerminator_of_flow? hf)) (fun x hx => hadm x (.tail _ hx))
          (fun x hx => hops x (.tail _ hx)) (fun x hx => hdirty x (.tail _ hx))
          (hrel.plain hs ha hsources hstmt hb hid hsync hdest hdefines (hdirty id (.head _)))
      | some flow =>
        have hyes := isTerminator_of_flow? hf
        obtain rfl := hterm.eq_nil hyes
        cases hrest
        refine ⟨flow, σ, σ'', rfl, rfl, ?_⟩
        -- a terminator defines no register
        have hkeep : ρ₁ = ρ := by
          cases hdefines with
          | keep _ => rfl
          | define hi _ =>
            obtain ⟨d, hd, hi⟩ := Option.bind_eq_some_iff.mp hi
            obtain ⟨r, hr⟩ := mem_of_registerIndex? hi
            have hk := (ha.register d r (hdest d hd)).mpr (mem_regs hr)
            have hvalue := (hid.dest d r hd hk).1
            rw [Instruction.hasValue_of_isTerminator hyes] at hvalue
            cases hvalue
        rw [hkeep]
        cases flow with
        | goto next => exact hrel
        | leave how =>
          refine ⟨hrel.close, hagree (.inr ?_)⟩
          cases hinst : (V.source.stmt id).inst <;>
            simp [flow?, hinst] at hf <;> rfl
    | sync hsync hloads hstmt =>
      have hflow := hrel.flow hs ha hsources hstmt
      have hnot := Instruction.isTerminator_of_synchronizes hsync
      rw [hrun, runCode, runCode, hflow, V.source.flow?_eq_none host σ hnot]
      obtain ⟨w, w', hsource, htarget, hclose, hagree'⟩ :=
        hrel.sync hs ha hsources hstmt hb visit hsync (hagree (.inl hsync))
      obtain ⟨τ, hreload, hrel'⟩ := Rel.reload hs ha visit hloads { σ with world := w }
        { σ'' with world := w' } hclose hagree' hrel.locals hrel.fits
      simp only [hsource, htarget]
      rw [hreload]
      exact ih (hterm.tail hnot) (fun x hx => hadm x (.tail _ hx))
        (fun x hx => hops x (.tail _ hx)) (fun x hx => hdirty x (.tail _ hx)) hrel'

/-! ### Blocks -/

omit hs ha in
theorem Stores.inst_eq {x : OpId} (h : V.Stores ρ id stores) (hx : x ∈ stores) :
    ∃ r, (V.target.stmt x).inst = .storeContext (.register r) := by
  obtain ⟨e, -, he⟩ := exists_of_forall₂ h hx
  exact ⟨e.1.1, by rw [he]⟩

section

variable (hb : reachable b)

include hb

/-- The phis of a block are those of its registers. -/
theorem Sound.phi_eq (hid : id ∈ V.target.code b) (hphi : (V.target.stmt id).inst = .phi) :
    ∃ e ∈ V.regs.zipIdx, V.target.stmt id = V.phi b e.2 := by
  obtain ⟨phis, loads, body, hblock⟩ := hs.blocks b hb
  rw [hblock.code, mem_append, mem_append] at hid
  rcases hid with hid | hid | hid
  · exact hblock.phis id hid
  · obtain ⟨r, hr⟩ := hblock.load_inst hid
    rw [hr] at hphi
    cases hphi
  · refine absurd hphi (hblock.body.not_phi (fun x hx => (ha.admissible b hb x hx).not_phi) ?_ hid)
    intro ρ x stores hstores y hy
    obtain ⟨r, hr⟩ := Stores.inst_eq hstores hy
    simp [hr]

theorem Sound.phiSource?_of_phi (hk : (V.target.preds b)[k]? = some c) (he : e ∈ V.regs.zipIdx)
    (hphi : ∃ id ∈ V.target.code b, V.target.stmt id = V.phi b e.2) :
    V.target.phiSource? b k (V.incoming b e.2) = some (V.outgoing c e.2) := by
  obtain ⟨id, hid, hstmt⟩ := hphi
  rw [phiSource?_of_mem hid (by rw [hstmt]; rfl) (by rw [hstmt]; rfl)]
  · simp [hstmt, phi, hk]
  · intro x hx hinst hdest
    obtain ⟨e', he', hstmt'⟩ := hs.phi_eq ha hb hx hinst
    rw [hstmt'] at hdest
    have heq : V.incoming b e'.2 = V.incoming b e.2 := Option.some.inj hdest
    rw [hstmt, hstmt', hs.version_inj _ _ _ (hs.incoming b hb e' he') (heq ▸ hs.incoming b hb e he)]

theorem Sound.phiSource?_of_not (k : Nat)
    (hnot : ∀ e ∈ V.regs.zipIdx, (∃ id ∈ V.target.code b, V.target.stmt id = V.phi b e.2) →
      o ≠ V.incoming b e.2) : V.target.phiSource? b k o = none := by
  refine findSome?_eq_none_iff.mpr fun id hid => if_neg ?_
  rintro ⟨hinst, hdest⟩
  obtain ⟨e, he, hstmt⟩ := hs.phi_eq ha hb hid hinst
  rw [hstmt] at hdest
  exact hnot e he ⟨id, hid, hstmt⟩ (Option.some.inj hdest).symm

/-- Entering a block over an edge turns the versions at the end of one block into those at the start
of the next. -/
theorem Rel.enter (hc : c ∈ V.source.successors b) (h : V.Rel host mask Close (V.outgoing b) σ σ') :
    V.Rel host mask Close (V.incoming c) σ (V.target.enter host (some b) c σ') := by
  obtain ⟨hcr, hpred, hedge⟩ := hs.edge b c hb hc
  obtain ⟨k, hk, hat⟩ := V.target.exists_idxOf?_preds hpred
  have hagree : ∀ r, AgreeAt host mask r σ σ' →
      AgreeAt host mask r σ (V.target.enter host (some b) c σ') := by
    intro r hr
    rw [AgreeAt, world_enter]
    exact hr
  refine ⟨hs.incoming c hcr, ?_, ?_, fun r hr hnot => hagree r (h.others r hr hnot), ?_, ?_, h.fits⟩
  · intro e he
    by_cases hphi : ∃ id ∈ V.target.code c, V.target.stmt id = V.phi c e.2
    · obtain ⟨-, j, hj⟩ := hs.version _ _ (h.version e he)
      rw [V.target.locals_enter_of_some host hk σ' (hs.phiSource?_of_phi ha hcr hat he hphi),
        Program.read, hj]
      exact h.value e he
    · have heq := (hedge e he).resolve_left hphi
      rw [V.target.locals_enter_of_none host hk σ' (hs.phiSource?_of_not ha hcr k ?_), heq]
      · exact h.value e he
      · rintro e' he' hphi' heq'
        have := hs.version_inj _ _ _ (hs.incoming c hcr e he) (heq' ▸ hs.incoming c hcr e' he')
        rw [this] at hphi
        exact hphi hphi'
  · intro e he hd
    refine hagree _ (h.clean e he ?_)
    by_contra hdirty
    rw [Bool.not_eq_false] at hdirty
    rw [hs.dirty b c hb hc e he hdirty] at hd
    cases hd
  · rw [world_enter]
    exact h.close
  · intro o ho
    rw [V.target.locals_enter_of_none host hk σ' (hs.phiSource?_of_not ha hcr k ?_)]
    · exact h.locals o ho
    · rintro e he - rfl
      exact absurd ho (hs.version _ _ (hs.incoming c hcr e he)).1.not_gt

end

/-- How far the two programs got after the same number of blocks. -/
inductive Matches (V : Versioning) (host : Host ω) (mask : GuestReg → UInt64)
    (Close : ω → ω → Prop) (reachable : BlockId → Prop) : Outcome ω → Outcome ω → Prop
  | start {w w' : ω} (hclose : Close w w')
      (hagree : (host.context w).Agree mask (host.context w')) :
      Matches V host mask Close reachable (.running none Function.entry ⟨fun _ => 0, w⟩)
        (.running none Function.entry ⟨fun _ => 0, w'⟩)
  | running {b c : BlockId} {σ σ' : State ω} (hb : reachable b) (hc : c ∈ V.source.successors b)
      (hrel : V.Rel host mask Close (V.outgoing b) σ σ') :
      Matches V host mask Close reachable (.running (some b) c σ) (.running (some b) c σ')
  | left {how : Leave} {w w' : ω} (hclose : Close w w')
      (hagree : (host.context w).Agree mask (host.context w')) :
      Matches V host mask Close reachable (.left how w) (.left how w')

section

variable (hb : host.RegisterBlind mask Close)

include hb

/-- A block that is entered in related states ends in related states. -/
theorem Matches.of_rel (hbr : reachable b) (visit : Nat) {body : List OpId}
    (hbody : Body V.regs V.version V.source V.target V.Stores (V.incoming b) (V.source.code b) body
      (V.outgoing b)) (h : V.Rel host mask Close (V.incoming b) σ σ') :
    V.Matches host mask Close reachable
      (match V.source.runCode host visit (V.source.code b) σ with
        | (some (.goto next), σ) => .running (some b) next σ
        | (some (.leave how), σ) => .left how σ.world
        | (none, _) => .stuck)
      (match V.target.runCode host visit body σ' with
        | (some (.goto next), σ) => .running (some b) next σ
        | (some (.leave how), σ) => .left how σ.world
        | (none, _) => .stuck) := by
  obtain ⟨flow, τ, τ', hrun, hrun', hended⟩ := runBody hs ha hb hbody (ha.terminated b hbr)
    (ha.admissible b hbr) (hs.operands b hbr) (hs.defined b hbr) h
  rw [hrun, hrun']
  cases flow with
  | leave how => exact .left hended.1 hended.2
  | goto next => exact .running hbr ((ha.terminated b hbr).goto_successor hrun) hended

theorem Matches.advance {outcome outcome' : Outcome ω}
    (h : V.Matches host mask Close reachable outcome outcome') :
    V.Matches host mask Close reachable (V.source.advance host visit outcome)
      (V.target.advance host visit outcome') := by
  have hphis : ∀ {b phis loads body}, V.Block b phis loads body →
      ∀ id ∈ phis, (V.target.stmt id).inst = .phi := by
    intro b phis loads body hblock id hid
    obtain ⟨e, -, hstmt⟩ := hblock.phis id hid
    rw [hstmt]
    rfl
  cases h with
  | left hclose hagree => exact .left hclose hagree
  | @start w w' hclose hagree =>
    obtain ⟨phis, loads, body, hblock⟩ := hs.blocks _ hs.entry
    have hloads := hblock.loads
    obtain ⟨σ', hrun, hrel⟩ := Rel.reload hs ha visit hloads ⟨fun _ => 0, w⟩ ⟨fun _ => 0, w'⟩
      hclose hagree (fun _ _ => rfl) fun _ _ => UInt64.zero_and
    have hmatch := Matches.of_rel hs ha hb hs.entry visit hblock.body hrel
    simp only [Program.advance, enter, Option.bind_none, hblock.code, runCode_phis (hphis hblock),
      hrun]
    exact hmatch
  | @running b c σ σ' hbr hc hrel =>
    obtain ⟨hcr, -, -⟩ := hs.edge b c hbr hc
    obtain ⟨phis, loads, body, hblock⟩ := hs.blocks c hcr
    have hloads := hblock.loads
    rw [if_neg fun heq : c = Function.entry => hs.not_entry b hbr (heq ▸ hc)] at hloads
    subst hloads
    have hmatch := Matches.of_rel hs ha hb hcr visit hblock.body (hrel.enter hs ha hbr hc)
    have henter : V.source.enter host (some b) c σ = σ :=
      enter_of_not_phi fun id hid => (ha.admissible c hcr id hid).not_phi
    simp only [Program.advance, henter, hblock.code, runCode_phis (hphis hblock)]
    exact hmatch

/-- Both programs come equally far in any number of blocks. -/
theorem Sound.run_matches (hclose : Close w w')
    (hagree : (host.context w).Agree mask (host.context w')) (n : Nat) :
    V.Matches host mask Close reachable (V.source.run host w n) (V.target.run host w' n) := by
  induction n with
  | zero => exact .start hclose hagree
  | succ n ih => exact ih.advance hs ha hb

end

end Versioning

end Dynarec.IR
