import Dynarec.IR.Edit
import Mathlib.Data.List.Nodup
import Mathlib.Logic.Function.Basic

/-!
# The pools of a function under edits

What each primitive edit does to the operands, the operations and the blocks, one look-up at a time.
-/

namespace Dynarec.IR

open Operation

def Operation.fresh (b : BlockId) (inst : Instruction) (dest : Option OperandId)
    (sources : List OperandId) : Operation where
  inst
  dest
  slots := pack (sources.take maxSources)
  count := (sources.take maxSources).length
  block := b
  prev := none
  next := none
  live := true

theorem Operation.take_pack {sources : List OperandId} (h : sources.length ≤ 4) :
    (pack sources).toList.take sources.length = sources := by
  apply List.ext_getElem?
  intro i
  rw [List.getElem?_take]
  split
  next hi => simp [pack, show i < 4 by omega, hi]
  next hi => rw [List.getElem?_eq_none (by omega)]

@[simp] theorem Operation.sources_fresh (b : BlockId) (inst : Instruction) (dest : Option OperandId)
    (sources : List OperandId) :
    (fresh b inst dest sources).sources = sources.take maxSources :=
  take_pack (List.length_take_le _ _)

namespace Function

variable (f : Function)

/-! ### Look-ups after a change in place -/

theorem getD_modify {α : Type} (a : Array α) (i j : Nat) (g : α → α) (d : α) :
    (a.modify i g).getD j d = if j = i ∧ j < a.size then g (a.getD j d) else a.getD j d := by
  simp only [Array.getD_eq_getD_getElem?, Array.getElem?_modify]
  by_cases h : j = i
  · subst h
    by_cases hj : j < a.size <;> simp [hj]
  · simp [h, Ne.symm h]

theorem operand_modifyOperand (id x : OperandId) (g : Operand → Operand) :
    (f.modifyOperand id g).operand x =
      if x = id ∧ x.index < f.operands.size then g (f.operand x) else f.operand x := by
  obtain ⟨i⟩ := id
  obtain ⟨j⟩ := x
  simp only [OperandId.mk.injEq]
  exact getD_modify f.operands i j g default

theorem operation_modifyOperation (id x : OpId) (g : Operation → Operation) :
    (f.modifyOperation id g).operation x =
      if x = id ∧ x.index < f.operations.size then g (f.operation x) else f.operation x := by
  obtain ⟨i⟩ := id
  obtain ⟨j⟩ := x
  simp only [OpId.mk.injEq]
  exact getD_modify f.operations i j g default

theorem block_modifyBlock (id x : BlockId) (g : BasicBlock → BasicBlock) :
    (f.modifyBlock id g).block x =
      if x = id ∧ x.index < f.blocks.size then g (f.block x) else f.block x := by
  obtain ⟨i⟩ := id
  obtain ⟨j⟩ := x
  simp only [BlockId.mk.injEq]
  exact getD_modify f.blocks i j g default

section Unchanged

variable (x : OperandId) (y : OpId) (z : BlockId)

@[simp] theorem operand_modifyOperation (g : Operation → Operation) :
    (f.modifyOperation y g).operand x = f.operand x := rfl
@[simp] theorem block_modifyOperation (g : Operation → Operation) :
    (f.modifyOperation y g).block z = f.block z := rfl
@[simp] theorem operation_modifyBlock (g : BasicBlock → BasicBlock) :
    (f.modifyBlock z g).operation y = f.operation y := rfl
@[simp] theorem operands_modifyOperation (g : Operation → Operation) :
    (f.modifyOperation y g).operands = f.operands := rfl
@[simp] theorem blocks_modifyOperation (g : Operation → Operation) :
    (f.modifyOperation y g).blocks = f.blocks := rfl
@[simp] theorem operands_modifyBlock (g : BasicBlock → BasicBlock) :
    (f.modifyBlock z g).operands = f.operands := rfl
@[simp] theorem operations_modifyBlock (g : BasicBlock → BasicBlock) :
    (f.modifyBlock z g).operations = f.operations := rfl
@[simp] theorem size_modifyOperand (g : Operand → Operand) :
    (f.modifyOperand x g).operands.size = f.operands.size := by simp [modifyOperand]
@[simp] theorem size_modifyOperation (g : Operation → Operation) :
    (f.modifyOperation y g).operations.size = f.operations.size := by simp [modifyOperation]
@[simp] theorem size_modifyBlock (g : BasicBlock → BasicBlock) :
    (f.modifyBlock z g).blocks.size = f.blocks.size := by simp [modifyBlock]

end Unchanged

theorem operation_of_size_le {x : OpId} (h : f.operations.size ≤ x.index) :
    f.operation x = default := by
  simp [operation, Array.getElem?_eq_none h]

theorem operand_of_size_le {x : OperandId} (h : f.operands.size ≤ x.index) :
    f.operand x = default := by
  simp [operand, Array.getElem?_eq_none h]

theorem lt_size_of_live {x : OpId} (h : (f.operation x).live = true) :
    x.index < f.operations.size := by
  by_contra hlt
  rw [f.operation_of_size_le (by omega)] at h
  cases h

/-! ### What edits leave alone -/

/-- Operands, blocks and predecessor lists are the same; operations and use lists may differ. -/
structure SamePools (f g : Function) : Prop where
  operands : g.operands.size = f.operands.size
  blocks : g.blocks.size = f.blocks.size
  kind : ∀ o, (g.operand o).kind = (f.operand o).kind
  ty : ∀ o, (g.operand o).ty = (f.operand o).ty
  predecessors : ∀ b, g.predecessors b = f.predecessors b
  constants : g.constants = f.constants
  registers : g.registers = f.registers
  undefined : g.undefined = f.undefined
  localCount : g.localCount = f.localCount
  guestAddress : g.guestAddress = f.guestAddress

namespace SamePools

theorem refl (f : Function) : SamePools f f :=
  ⟨rfl, rfl, fun _ => rfl, fun _ => rfl, fun _ => rfl, rfl, rfl, rfl, rfl, rfl⟩

theorem trans {f g h : Function} (hfg : SamePools f g) (hgh : SamePools g h) : SamePools f h where
  operands := hgh.operands.trans hfg.operands
  blocks := hgh.blocks.trans hfg.blocks
  kind o := (hgh.kind o).trans (hfg.kind o)
  ty o := (hgh.ty o).trans (hfg.ty o)
  predecessors b := (hgh.predecessors b).trans (hfg.predecessors b)
  constants := hgh.constants.trans hfg.constants
  registers := hgh.registers.trans hfg.registers
  undefined := hgh.undefined.trans hfg.undefined
  localCount := hgh.localCount.trans hfg.localCount
  guestAddress := hgh.guestAddress.trans hfg.guestAddress

end SamePools

/-- Nothing but the lists of the operands differs, and no use is listed twice. -/
structure Relisted (f g : Function) : Prop where
  pools : SamePools f g
  operations : g.operations = f.operations
  blocks : g.blocks = f.blocks
  nodup_uses : ∀ o, (f.operand o).uses.Nodup → (g.operand o).uses.Nodup

namespace Relisted

theorem refl (f : Function) : Relisted f f := ⟨.refl f, rfl, rfl, fun _ h => h⟩

theorem trans {f g h : Function} (hfg : Relisted f g) (hgh : Relisted g h) : Relisted f h :=
  ⟨hfg.pools.trans hgh.pools, hgh.operations.trans hfg.operations, hgh.blocks.trans hfg.blocks,
    fun o ho => hgh.nodup_uses o (hfg.nodup_uses o ho)⟩

theorem operation {f g : Function} (h : Relisted f g) (x : OpId) :
    g.operation x = f.operation x := by
  rw [Function.operation, h.operations, Function.operation]

theorem block {f g : Function} (h : Relisted f g) (c : BlockId) : g.block c = f.block c := by
  rw [Function.block, h.blocks, Function.block]

end Relisted

section Lists

variable (o p : OperandId) (id : OpId) (sources : List OperandId) (dest : Option OperandId)

/-- What a change of one operand keeps of that operand, it keeps of all. -/
theorem keeps_modifyOperand {P : Operand → Prop} {g : Operand → Operand}
    (hg : ∀ q, P q → P (g q)) (h : P (f.operand p)) : P ((f.modifyOperand o g).operand p) := by
  rw [operand_modifyOperand]
  split
  · exact hg _ h
  · exact h

theorem proj_modifyOperand {γ : Type} (proj : Operand → γ) {g : Operand → Operand}
    (hg : ∀ q, proj (g q) = proj q) :
    proj ((f.modifyOperand o g).operand p) = proj (f.operand p) :=
  f.keeps_modifyOperand o p (fun q hq => (hg q).trans hq) rfl

theorem relisted_modifyOperand {g : Operand → Operand} (hkind : ∀ q, (g q).kind = q.kind)
    (hty : ∀ q, (g q).ty = q.ty) (huses : ∀ q, q.uses.Nodup → (g q).uses.Nodup) :
    Relisted f (f.modifyOperand o g) where
  pools := ⟨f.size_modifyOperand o g, rfl, fun p => f.proj_modifyOperand o p Operand.kind hkind,
    fun p => f.proj_modifyOperand o p Operand.ty hty, fun _ => rfl, rfl, rfl, rfl, rfl, rfl⟩
  operations := rfl
  blocks := rfl
  nodup_uses p := f.keeps_modifyOperand o p huses

theorem relisted_addUse : Relisted f (f.addUse o id) :=
  f.relisted_modifyOperand o (fun _ => rfl) (fun _ => rfl) fun _ h => h.insert

theorem relisted_eraseUse : Relisted f (f.eraseUse o id) :=
  f.relisted_modifyOperand o (fun _ => rfl) (fun _ => rfl) fun _ h => h.filter _

theorem relisted_addUses : Relisted f (f.addUses id sources) :=
  List.foldlRecOn sources _ (.refl f) fun g hg o _ => hg.trans (g.relisted_addUse o id)

theorem relisted_eraseUses : Relisted f (f.eraseUses id sources) :=
  List.foldlRecOn sources _ (.refl f) fun g hg o _ => hg.trans (g.relisted_eraseUse o id)

def addDest : Function :=
  match dest with
  | some d => f.addDef d id
  | none => f

def eraseDest : Function :=
  match dest with
  | some d => f.eraseDef d id
  | none => f

theorem relisted_addDest : Relisted f (f.addDest id dest) := by
  cases dest with
  | none => exact .refl f
  | some d => exact f.relisted_modifyOperand d (fun _ => rfl) (fun _ => rfl) fun _ h => h

theorem relisted_eraseDest : Relisted f (f.eraseDest id dest) := by
  cases dest with
  | none => exact .refl f
  | some d => exact f.relisted_modifyOperand d (fun _ => rfl) (fun _ => rfl) fun _ h => h

end Lists

/-! ### Links change operations and blocks only -/

section Links

variable (b : BlockId) (id : OpId) (prev next : Option OpId)

@[simp] theorem operands_setPrev : (f.setPrev id prev).operands = f.operands := rfl
@[simp] theorem operands_setNext : (f.setNext id next).operands = f.operands := rfl
@[simp] theorem blocks_setNext : (f.setNext id next).blocks = f.blocks := rfl
@[simp] theorem size_setPrev : (f.setPrev id prev).operations.size = f.operations.size := by
  simp [setPrev]
@[simp] theorem size_setNext : (f.setNext id next).operations.size = f.operations.size := by
  simp [setNext]

@[simp] theorem operands_linkForward : (f.linkForward b prev next).operands = f.operands := by
  cases prev <;> rfl

@[simp] theorem operands_linkBackward : (f.linkBackward b prev next).operands = f.operands := by
  cases next <;> rfl

@[simp] theorem size_linkForward :
    (f.linkForward b prev next).operations.size = f.operations.size := by
  cases prev <;> simp [linkForward]

@[simp] theorem size_linkBackward :
    (f.linkBackward b prev next).operations.size = f.operations.size := by
  cases next <;> simp [linkBackward]

@[simp] theorem blocks_size_linkForward :
    (f.linkForward b prev next).blocks.size = f.blocks.size := by
  cases prev <;> simp [linkForward]

theorem operation_linkForward (x : OpId)
    (hprev : ∀ p, prev = some p → p.index < f.operations.size) :
    (f.linkForward b prev next).operation x =
      if prev = some x then { f.operation x with next } else f.operation x := by
  cases prev with
  | none => simp [linkForward]
  | some p =>
    simp only [linkForward, setNext, operation_modifyOperation]
    by_cases hx : x = p
    · subst hx
      simp [hprev x rfl]
    · simp [hx, Ne.symm hx]

theorem operation_linkBackward (x : OpId)
    (hnext : ∀ n, next = some n → n.index < f.operations.size) :
    (f.linkBackward b prev next).operation x =
      if next = some x then { f.operation x with prev } else f.operation x := by
  cases next with
  | none => simp [linkBackward]
  | some n =>
    simp only [linkBackward, setPrev, operation_modifyOperation]
    by_cases hx : x = n
    · subst hx
      simp [hnext x rfl]
    · simp [hx, Ne.symm hx]

theorem block_linkForward (c : BlockId) :
    (f.linkForward b prev next).block c =
      if c = b ∧ c.index < f.blocks.size ∧ prev = none then { f.block c with first := next }
      else f.block c := by
  cases prev with
  | none => simp [linkForward, block_modifyBlock]
  | some p => simp [linkForward, setNext]

theorem block_linkBackward (c : BlockId) :
    (f.linkBackward b prev next).block c =
      if c = b ∧ c.index < f.blocks.size ∧ next = none then { f.block c with last := prev }
      else f.block c := by
  cases next with
  | none => simp [linkBackward, block_modifyBlock]
  | some n => simp [linkBackward, setPrev]

end Links

/-! ### Creation -/

section Create

variable (b : BlockId) (inst : Instruction) (dest : Option OperandId) (sources : List OperandId)

/-- The function with one more operation, which no list and no link mentions. -/
def withOperation (op : Operation) : Function := { f with operations := f.operations.push op }

theorem create_eq : f.create b inst dest sources = (⟨f.operations.size⟩,
    ((f.withOperation (.fresh b inst dest sources)).addUses ⟨f.operations.size⟩
      (sources.take maxSources)).addDest ⟨f.operations.size⟩ dest) := by
  cases dest <;> rfl

theorem relisted_create :
    Relisted (f.withOperation (.fresh b inst dest sources)) (f.create b inst dest sources).2 := by
  rw [create_eq]
  exact (relisted_addUses _ _ _).trans (relisted_addDest _ _ _)

@[simp] theorem fst_create : (f.create b inst dest sources).1 = ⟨f.operations.size⟩ := by
  rw [create_eq]

@[simp] theorem operations_create : (f.create b inst dest sources).2.operations =
    f.operations.push (fresh b inst dest sources) :=
  (f.relisted_create b inst dest sources).operations

@[simp] theorem blocks_create : (f.create b inst dest sources).2.blocks = f.blocks :=
  (f.relisted_create b inst dest sources).blocks

theorem operation_create (x : OpId) :
    (f.create b inst dest sources).2.operation x =
      if x = ⟨f.operations.size⟩ then fresh b inst dest sources else f.operation x := by
  obtain ⟨j⟩ := x
  simp only [OpId.mk.injEq, (f.relisted_create b inst dest sources).operation]
  simp only [operation, withOperation, Array.getD_eq_getD_getElem?, Array.getElem?_push]
  split <;> rfl

theorem block_create (x : BlockId) : (f.create b inst dest sources).2.block x = f.block x :=
  (f.relisted_create b inst dest sources).block x

end Create

end Function

end Dynarec.IR
