import Dynarec.Proofs.IR.UseLists
import Dynarec.Proofs.Lookup
import Mathlib.Order.Nat

/-!
# Functions as programs

A `Program` is what a function means to a reader: the operations of each block in order, what each
of them does, and what the operands stand for. A function is well formed if its links, its lists and
its tables agree with that view. Every edit of a well-formed function is an edit of its program and
leaves the function well formed.
-/

open Function (update update_apply update_eq_self)

namespace Dynarec.IR

open List

/-- What an operation does, apart from where it stands. -/
structure Stmt where
  inst : Instruction
  dest : Option OperandId
  sources : List OperandId
deriving DecidableEq

def Stmt.Writes (s : Stmt) (o : OperandId) : Prop := s.dest = some o

def Operation.stmt (op : Operation) : Stmt := ⟨op.inst, op.dest, op.sources⟩

/-- A function without links and lists. -/
@[ext] structure Program where
  code : BlockId → List OpId
  stmt : OpId → Stmt
  kind : OperandId → OperandKind
  ty : OperandId → Ty
  preds : BlockId → List BlockId

namespace Program

def withCode (p : Program) (b : BlockId) (ids : List OpId) : Program :=
  { p with code := update p.code b ids }

def withStmt (p : Program) (id : OpId) (s : Stmt) : Program :=
  { p with stmt := update p.stmt id s }

def withOperand (p : Program) (o : OperandId) (kind : OperandKind) (ty : Ty) : Program :=
  { p with kind := update p.kind o kind, ty := update p.ty o ty }

section Fields

variable (p : Program) (b c : BlockId) (ids : List OpId) (id x : OpId) (s : Stmt)
  (o q : OperandId) (kind : OperandKind) (ty : Ty)

theorem code_withCode : (p.withCode b ids).code c = if c = b then ids else p.code c :=
  update_apply _ _ _ _

theorem stmt_withStmt : (p.withStmt id s).stmt x = if x = id then s else p.stmt x :=
  update_apply _ _ _ _

theorem kind_withOperand : (p.withOperand o kind ty).kind q = if q = o then kind else p.kind q :=
  update_apply _ _ _ _

theorem ty_withOperand : (p.withOperand o kind ty).ty q = if q = o then ty else p.ty q :=
  update_apply _ _ _ _

theorem withCode_code : p.withCode b (p.code b) = p := by
  rw [withCode, update_eq_self]

@[simp] theorem stmt_withCode : (p.withCode b ids).stmt = p.stmt := rfl
@[simp] theorem kind_withCode : (p.withCode b ids).kind = p.kind := rfl
@[simp] theorem ty_withCode : (p.withCode b ids).ty = p.ty := rfl
@[simp] theorem code_withStmt : (p.withStmt id s).code = p.code := rfl
@[simp] theorem kind_withStmt : (p.withStmt id s).kind = p.kind := rfl
@[simp] theorem ty_withStmt : (p.withStmt id s).ty = p.ty := rfl

end Fields

end Program

namespace Function

def program (f : Function) : Program where
  code := f.blockOperations
  stmt id := (f.operation id).stmt
  kind o := (f.operand o).kind
  ty o := (f.operand o).ty
  preds := f.predecessors

/-- The tables of a function name just the operands of each kind, and each of them once. -/
structure Interned (f : Function) : Prop where
  local_lt : ∀ o i, o.index < f.operands.size → (f.operand o).kind = .local_ i → i < f.localCount
  local_inj : ∀ o p i, o.index < f.operands.size → p.index < f.operands.size →
    (f.operand o).kind = .local_ i → (f.operand p).kind = .local_ i → o = p
  constant_fits : ∀ o v, o.index < f.operands.size → (f.operand o).kind = .constant v →
    v &&& (f.operand o).ty.mask = v
  mem_constants : ∀ v ty o, ((v, ty), o) ∈ f.constants ↔
    o.index < f.operands.size ∧ (f.operand o).kind = .constant v ∧ (f.operand o).ty = ty
  mem_registers : ∀ r o, (r, o) ∈ f.registers ↔
    o.index < f.operands.size ∧ (f.operand o).kind = .register r
  mem_undefined : ∀ ty o, (ty, o) ∈ f.undefined ↔
    o.index < f.operands.size ∧ (f.operand o).kind = .undefined ∧ (f.operand o).ty = ty
  nodup_constants : (f.constants.map Prod.fst).Nodup
  nodup_registers : (f.registers.map Prod.fst).Nodup
  nodup_undefined : (f.undefined.map Prod.fst).Nodup

/-- Links, lists and tables agree with the operations and operands. -/
structure WellFormed (f : Function) : Prop where
  layout : Layout f f.blockOperations
  tracked : Tracked f
  interned : Interned f

variable {f g : Function} {kind : OperandKind} {ty : Ty} {α β : Type}

theorem Interned.congr (h : Interned f) (hs : SamePools f g) : Interned g where
  local_lt o i ho hk := by
    rw [hs.localCount]
    exact h.local_lt o i (hs.operands ▸ ho) (hs.kind o ▸ hk)
  local_inj o p i ho hp hko hkp :=
    h.local_inj o p i (hs.operands ▸ ho) (hs.operands ▸ hp) (hs.kind o ▸ hko) (hs.kind p ▸ hkp)
  constant_fits o v ho hk := by
    rw [hs.ty]
    exact h.constant_fits o v (hs.operands ▸ ho) (hs.kind o ▸ hk)
  mem_constants v ty o := by
    rw [hs.constants, hs.operands, hs.kind, hs.ty]
    exact h.mem_constants v ty o
  mem_registers r o := by
    rw [hs.registers, hs.operands, hs.kind]
    exact h.mem_registers r o
  mem_undefined ty o := by
    rw [hs.undefined, hs.operands, hs.kind, hs.ty]
    exact h.mem_undefined ty o
  nodup_constants := hs.constants ▸ h.nodup_constants
  nodup_registers := hs.registers ▸ h.nodup_registers
  nodup_undefined := hs.undefined ▸ h.nodup_undefined

theorem Layout.wf {code : BlockId → List OpId} (hl : Layout g code) (ht : Tracked g)
    (hi : Interned g) : g.WellFormed := by
  refine ⟨?_, ht, hi⟩
  rw [hl.blockOperations_eq]
  exact hl

/-- The program after an edit that leaves operands and predecessors alone. -/
theorem SamePools.program_eq (hs : SamePools f g) {p : Program} (hl : Layout g p.code)
    (hstmt : ∀ x, (g.operation x).stmt = p.stmt x) (hkind : p.kind = f.program.kind)
    (hty : p.ty = f.program.ty) (hpreds : p.preds = f.program.preds) : g.program = p :=
  Program.ext hl.blockOperations_eq (funext hstmt) (hkind ▸ funext hs.kind) (hty ▸ funext hs.ty)
    (hpreds ▸ funext hs.predecessors)

namespace Restates

variable {id : OpId} {op : Operation}

section

variable (h : Restates f id op g)

include h

theorem layout (hf : f.WellFormed) : Layout g f.program.code := by
  refine hf.layout.congr (fun b => by simp [block, h.blocks]) fun x => ?_
  rw [h.operation]
  split
  next hx =>
    subst hx
    exact h.links
  · exact ⟨rfl, rfl, rfl, rfl⟩

theorem wf (hf : f.WellFormed) (ht : Tracked g) : g.WellFormed :=
  (h.layout hf).wf ht (hf.interned.congr h.pools)

theorem program (hf : f.WellFormed) : g.program = f.program.withStmt id op.stmt := by
  refine h.pools.program_eq (h.layout hf) (fun x => ?_) rfl rfl rfl
  rw [h.operation, Program.stmt_withStmt]
  split <;> rfl

end

end Restates

namespace WellFormed

variable {b : BlockId} {id : OpId} {o : OperandId}

section

variable (h : f.WellFormed)

include h

theorem live_of_mem (hid : id ∈ f.program.code b) : (f.operation id).live = true :=
  h.layout.live b id hid

theorem mem_code_iff :
    id ∈ f.program.code b ↔ (f.operation id).live = true ∧ (f.operation id).block = b :=
  h.layout.mem_iff

theorem nodup_code (b : BlockId) : (f.program.code b).Nodup :=
  h.layout.nodup b

/-- An operation stands once in its block. -/
theorem notMem_code {l r : List OpId} (hb : f.program.code b = l ++ r) (hid : id ∈ r) : id ∉ l :=
  fun hmem => disjoint_of_nodup_append (hb ▸ h.nodup_code b) hmem hid

/-- An operation stands in one block. -/
theorem block_unique {c : BlockId} (hb : id ∈ f.program.code b)
    (hc : id ∈ f.program.code c) : b = c :=
  h.layout.eq_block hb hc

section

variable (hid : id ∈ f.program.code b)

include hid

theorem lt_operations : id.index < f.operations.size :=
  h.layout.lt_size hid

theorem lt_blocks : b.index < f.blocks.size :=
  h.layout.block_lt_size hid

theorem source_lt (ho : o ∈ (f.program.stmt id).sources) : o.index < f.operands.size :=
  h.tracked.source_lt id (h.live_of_mem hid) o ho

theorem dest_lt (ho : (f.program.stmt id).dest = some o) : o.index < f.operands.size :=
  h.tracked.dest_lt id (h.live_of_mem hid) o ho

theorem operand_lt (ho : o ∈ (f.program.stmt id).sources ∨ (f.program.stmt id).dest = some o) :
    o.index < f.operands.size :=
  ho.elim (h.source_lt hid) (h.dest_lt hid)

end

end

section Change

variable {id : OpId} {b : BlockId} {before after : List OpId} {i : Nat} {sources : List OperandId}

section

variable (h : f.WellFormed)

include h

section

variable (hb : f.program.code b = before ++ id :: after)

include hb

theorem live_of_split : (f.operation id).live = true :=
  h.live_of_mem (hb ▸ mem_append_right _ (.head _))

theorem remove : (f.remove id).WellFormed :=
  (h.layout.remove hb).wf (h.tracked.remove h.layout (h.live_of_split hb))
    (h.interned.congr (f.samePools_remove id))

theorem program_remove : (f.remove id).program = f.program.withCode b (before ++ after) := by
  refine (f.samePools_remove id).program_eq (h.layout.remove hb) (fun x => ?_) rfl rfl rfl
  obtain ⟨-, hinst, hdest, hsources⟩ := h.layout.contents_remove (h.live_of_split hb) x
  rw [Operation.stmt, hinst, hdest, hsources]
  rfl

end

theorem setSource (hid : id ∈ f.program.code b)
    (hi : i < (f.program.stmt id).sources.length) {new : OperandId}
    (hnew : new.index < f.operands.size) : (f.setSource id i new).WellFormed :=
  (restates_setSource hi new).wf h (h.tracked.setSource (h.live_of_mem hid) hi hnew)

theorem program_setSource (hi : i < (f.program.stmt id).sources.length) (new : OperandId) :
    (f.setSource id i new).program = f.program.withStmt id
      { f.program.stmt id with sources := (f.program.stmt id).sources.set i new } := by
  rw [(restates_setSource hi new).program h, Operation.stmt, Operation.sources_setSlot]
  rfl

section

variable (hid : id ∈ f.program.code b)

include hid

theorem replaceSources (hsources : ∀ o ∈ sources, o.index < f.operands.size) :
    (f.replaceSources id sources).WellFormed :=
  (restates_replaceSources (h.live_of_mem hid) sources).wf h
    (h.tracked.replaceSources (h.live_of_mem hid) hsources)

theorem program_replaceSources (hlen : sources.length ≤ maxSources) :
    (f.replaceSources id sources).program =
      f.program.withStmt id { f.program.stmt id with sources } := by
  refine ((restates_replaceSources (h.live_of_mem hid) sources).program h).trans ?_
  rw [Operation.stmt, Operation.sources, take_of_length_le hlen, Operation.take_pack hlen]
  rfl

theorem setInstruction (inst : Instruction) : (f.setInstruction id inst).WellFormed :=
  (restates_setInstruction (h.live_of_mem hid) inst).wf h
    (h.tracked.setInstruction (h.live_of_mem hid) inst)

/-- An operation becomes a copy. -/
theorem setCopy (ho : o.index < f.operands.size) :
    ((f.setInstruction id .copy).replaceSources id [o]).WellFormed ∧
      SamePools f ((f.setInstruction id .copy).replaceSources id [o]) ∧
      ((f.setInstruction id .copy).replaceSources id [o]).operations.size = f.operations.size ∧
      ((f.setInstruction id .copy).replaceSources id [o]).program =
        f.program.withStmt id ⟨.copy, (f.program.stmt id).dest, [o]⟩ := by
  have hw := h.setInstruction hid .copy
  have hi := restates_setInstruction (h.live_of_mem hid) .copy
  have hp := hi.program h
  have hid' : id ∈ (f.setInstruction id .copy).program.code b := by
    rw [hp]
    exact hid
  have ho' : o.index < (f.setInstruction id .copy).operands.size := ho
  have hr := restates_replaceSources (hw.live_of_mem hid') [o]
  refine ⟨hw.replaceSources hid' (by simpa using ho'),
    hi.pools.trans hr.pools, hr.size.trans hi.size, ?_⟩
  rw [hw.program_replaceSources hid' (by simp [maxSources]), hp]
  refine Program.ext rfl ((Function.update_idem ..).trans ?_) rfl rfl rfl
  rw [Program.stmt_withStmt, if_pos rfl]
  rfl

theorem setDest {dest : Option OperandId} (hdest : ∀ d, dest = some d → d.index < f.operands.size) :
    (f.setDest id dest).WellFormed :=
  (restates_setDest (h.live_of_mem hid) dest).wf h (h.tracked.setDest (h.live_of_mem hid) hdest)

end

end

end Change

end WellFormed

@[simp] theorem size_remove (id : OpId) : (f.remove id).operations.size = f.operations.size := by
  cases hlive : (f.operation id).live with
  | false => rw [remove, if_pos (by simp [hlive])]
  | true =>
    rw [remove_eq hlive, size_modifyOperation, relisted_unlinked.operations, unlinked,
      size_linkBackward, size_linkForward]

/-! ### Insertion next to an end or an operation -/

section Place

variable (inst : Instruction) (dest : Option OperandId) (sources : List OperandId) {b : BlockId}
  {anchor : OpId} {before after : List OpId}

@[simp] theorem fst_pushBefore (anchor : OpId) :
    (f.pushBefore anchor inst dest sources).1 = ⟨f.operations.size⟩ :=
  f.fst_create _ inst dest sources

@[simp] theorem fst_pushBack (b : BlockId) :
    (f.pushBack b inst dest sources).1 = ⟨f.operations.size⟩ :=
  f.fst_create _ inst dest sources

@[simp] theorem size_pushBefore (anchor : OpId) :
    (f.pushBefore anchor inst dest sources).2.operations.size = f.operations.size + 1 := by
  simp [pushBefore]

@[simp] theorem size_pushBack (b : BlockId) :
    (f.pushBack b inst dest sources).2.operations.size = f.operations.size + 1 := by
  simp [pushBack]

/-- `g` is `f` with more operations. -/
structure Added (f g : Function) : Prop where
  wf : g.WellFormed
  pools : SamePools f g
  size : f.operations.size ≤ g.operations.size
  old : ∀ id : OpId, id.index < f.operations.size → g.program.stmt id = f.program.stmt id

theorem Added.refl (h : f.WellFormed) : Added f f := ⟨h, .refl f, le_rfl, fun _ _ => rfl⟩

theorem Added.trans {h : Function} (hfg : Added f g) (hgh : Added g h) : Added f h where
  wf := hgh.wf
  pools := hfg.pools.trans hgh.pools
  size := hfg.size.trans hgh.size
  old id hid := (hgh.old id (hid.trans_le hfg.size)).trans (hfg.old id hid)

/-- What an insertion into a block comes to, wherever it puts the new operation. -/
structure Inserted (f : Function) (b : BlockId) (s : Stmt) (ids : List OpId)
    (r : OpId × Function) : Prop where
  id_eq : r.1 = ⟨f.operations.size⟩
  wf : r.2.WellFormed
  program : r.2.program = (f.program.withStmt ⟨f.operations.size⟩ s).withCode b ids
  pools : SamePools f r.2
  size : r.2.operations.size = f.operations.size + 1

section

variable {s : Stmt} {ids : List OpId} {r : OpId × Function} (h : Inserted f b s ids r)

include h

theorem Inserted.stmt_new : r.2.program.stmt ⟨f.operations.size⟩ = s := by
  rw [h.program, Program.stmt_withCode, Program.stmt_withStmt, if_pos rfl]

theorem Inserted.stmt_of_lt {x : OpId} (hx : x.index < f.operations.size) :
    r.2.program.stmt x = f.program.stmt x := by
  rw [h.program, Program.stmt_withCode, Program.stmt_withStmt, if_neg]
  rintro rfl
  exact lt_irrefl _ hx

theorem Inserted.added : Added f r.2 :=
  ⟨h.wf, h.pools, h.size ▸ Nat.le_succ _, fun _ => h.stmt_of_lt⟩

end

variable {dest sources} (h : f.WellFormed) (hb : b.index < f.blocks.size)
  (hcode : f.program.code b = before ++ anchor :: after) (hlen : sources.length ≤ maxSources)
  (hsources : ∀ o ∈ sources, o.index < f.operands.size)
  (hdest : ∀ d, dest = some d → d.index < f.operands.size)

include h hlen hsources hdest

/-- An operation has been created and linked into a block. -/
theorem WellFormed.inserted {c : BlockId} {ids : List OpId} {r : OpId × Function}
    (hid : r.1 = ⟨f.operations.size⟩) (hlayout : Layout r.2 (update f.blockOperations b ids))
    (hpools : SamePools f r.2) (hsize : r.2.operations.size = f.operations.size + 1)
    (hoperands : r.2.operands = (f.create c inst dest sources).2.operands)
    (hop : ∀ x, ∃ prev next, r.2.operation x =
      { (f.create c inst dest sources).2.operation x with prev, next }) :
    Inserted f b ⟨inst, dest, sources⟩ ids r := by
  refine ⟨hid, hlayout.wf ?_ (h.interned.congr hpools), ?_, hpools, hsize⟩
  · refine (h.tracked.create c inst dest sources hsources hdest).congr (by rw [hoperands])
      (fun o => by simp [operand, hoperands]) fun x => ?_
    obtain ⟨prev, next, hx⟩ := hop x
    rw [hx]
    exact ⟨rfl, rfl, rfl⟩
  · refine hpools.program_eq hlayout (fun x => ?_) rfl rfl rfl
    obtain ⟨prev, next, hx⟩ := hop x
    rw [hx, Program.stmt_withCode, Program.stmt_withStmt, operation_create]
    split
    · exact congrArg (Stmt.mk inst dest)
        ((Operation.sources_fresh c inst dest _).trans (take_of_length_le hlen))
    · rfl

include hcode in
theorem WellFormed.inserted_pushBefore :
    Inserted f b ⟨inst, dest, sources⟩ (before ++ ⟨f.operations.size⟩ :: anchor :: after)
      (f.pushBefore anchor inst dest sources) := by
  refine h.inserted inst hlen hsources hdest (c := (f.operation anchor).block) (by simp)
    (h.layout.pushBefore inst dest sources hcode) (f.samePools_pushBefore anchor inst dest sources)
    (by simp) (by simp [pushBefore]) fun x => ?_
  rw [h.layout.operation_pushBefore inst dest sources hcode, operation_create]
  split <;> exact ⟨_, _, rfl⟩

include hb in
theorem WellFormed.inserted_pushBack :
    Inserted f b ⟨inst, dest, sources⟩ (f.program.code b ++ [⟨f.operations.size⟩])
      (f.pushBack b inst dest sources) := by
  refine h.inserted inst hlen hsources hdest (c := b) (by simp)
    (h.layout.pushBack inst dest sources hb) (f.samePools_pushBack b inst dest sources) (by simp)
    (by simp [pushBack]) fun x => ?_
  rw [h.layout.operation_pushBack inst dest sources, operation_create]
  split <;> exact ⟨_, _, rfl⟩

include hb in
theorem WellFormed.inserted_pushFront :
    Inserted f b ⟨inst, dest, sources⟩ (⟨f.operations.size⟩ :: f.program.code b)
      (f.pushFront b inst dest sources) := by
  have hfirst : (f.block b).first = (f.program.code b).head? := h.layout.first b
  rw [pushFront]
  cases hcode : f.program.code b with
  | nil =>
    rw [hcode] at hfirst
    have hpush := h.inserted_pushBack inst hb hlen hsources hdest
    rw [hcode] at hpush
    simpa [hfirst] using hpush
  | cons anchor after =>
    rw [hcode] at hfirst
    have hsplit : f.program.code b = [] ++ anchor :: after := hcode
    simpa [hfirst] using h.inserted_pushBefore inst hsplit hlen hsources hdest

include hcode in
theorem WellFormed.inserted_pushAfter :
    Inserted f b ⟨inst, dest, sources⟩ (before ++ anchor :: ⟨f.operations.size⟩ :: after)
      (f.pushAfter anchor inst dest sources) := by
  have hmem : anchor ∈ f.program.code b := by simp [hcode]
  have hnext : (f.operation anchor).next = after.head? := h.layout.next_eq hcode
  have howner : (f.operation anchor).block = b := h.layout.owner b anchor hmem
  rw [pushAfter, hnext, howner]
  cases after with
  | nil =>
    have hpush := h.inserted_pushBack inst (h.lt_blocks hmem) hlen hsources hdest
    rw [hcode] at hpush
    simpa using hpush
  | cons next rest =>
    have hsplit : f.program.code b = (before ++ [anchor]) ++ next :: rest := by simpa using hcode
    simpa using h.inserted_pushBefore inst hsplit hlen hsources hdest

end Place

/-! ### New operands -/

theorem chain_congr (h : ∀ id, g.operation id = f.operation id) (n : Nat) (cursor : Option OpId) :
    g.chain n cursor = f.chain n cursor := by
  induction n generalizing cursor with
  | zero => rfl
  | succ n ih =>
    cases cursor with
    | none => rfl
    | some id => simp only [chain, ih, h]

/-- The operands of `f` are operands of `g`, with the same kinds and types. -/
structure OperandsKept (f g : Function) : Prop where
  operands : f.operands.size ≤ g.operands.size
  kind : ∀ o, o.index < f.operands.size → g.program.kind o = f.program.kind o
  ty : ∀ o, o.index < f.operands.size → g.program.ty o = f.program.ty o

theorem OperandsKept.refl (f : Function) : OperandsKept f f :=
  ⟨le_rfl, fun _ _ => rfl, fun _ _ => rfl⟩

theorem OperandsKept.trans {h : Function} (hfg : OperandsKept f g) (hgh : OperandsKept g h) :
    OperandsKept f h where
  operands := hfg.operands.trans hgh.operands
  kind o ho := (hgh.kind o (ho.trans_le hfg.operands)).trans (hfg.kind o ho)
  ty o ho := (hgh.ty o (ho.trans_le hfg.operands)).trans (hfg.ty o ho)

theorem SamePools.operandsKept (h : SamePools f g) : OperandsKept f g :=
  ⟨h.operands.ge, fun o _ => h.kind o, fun o _ => h.ty o⟩

/-- `g` has the operations and blocks of `f` and its operands, and maybe more operands. -/
structure Extends (f g : Function) : Prop where
  operations : g.operations = f.operations
  blocks : g.blocks = f.blocks
  size_le : f.operands.size ≤ g.operands.size
  operand : ∀ o, o.index < f.operands.size → g.operand o = f.operand o
  guestAddress : g.guestAddress = f.guestAddress

namespace Extends

theorem refl (f : Function) : Extends f f := ⟨rfl, rfl, le_rfl, fun _ _ => rfl, rfl⟩

theorem trans {h : Function} (hfg : Extends f g) (hgh : Extends g h) : Extends f h where
  operations := hgh.operations.trans hfg.operations
  blocks := hgh.blocks.trans hfg.blocks
  size_le := hfg.size_le.trans hgh.size_le
  operand o ho := (hgh.operand o (ho.trans_le hfg.size_le)).trans (hfg.operand o ho)
  guestAddress := hgh.guestAddress.trans hfg.guestAddress

section

variable (h : Extends f g)

include h

theorem operation (id : OpId) : g.operation id = f.operation id := by
  rw [Function.operation, h.operations, Function.operation]

theorem block (b : BlockId) : g.block b = f.block b := by
  rw [Function.block, h.blocks, Function.block]

theorem blockOperations : g.blockOperations = f.blockOperations := by
  funext b
  rw [Function.blockOperations, h.operations, h.block, chain_congr h.operation,
    Function.blockOperations]

theorem code_eq : g.program.code = f.program.code := h.blockOperations

theorem stmt_eq : g.program.stmt = f.program.stmt :=
  funext fun id => congrArg Operation.stmt (h.operation id)

theorem preds_eq : g.program.preds = f.program.preds :=
  funext fun b => congrArg BasicBlock.predecessors (h.block b)

theorem kind_eq {o : OperandId} (ho : o.index < f.operands.size) :
    g.program.kind o = f.program.kind o := congrArg Operand.kind (h.operand o ho)

theorem ty_eq {o : OperandId} (ho : o.index < f.operands.size) :
    g.program.ty o = f.program.ty o := congrArg Operand.ty (h.operand o ho)

theorem layout {code : BlockId → List OpId} (hl : Layout f code) : Layout g code :=
  hl.congr (fun b => by simp [h.block]) fun id => by simp [h.operation]

/-- Lists stay exact if the new operands have empty ones, as operands have that do not exist. -/
theorem tracked (ht : Tracked f) (hlists : ∀ o, (g.operand o).uses = (f.operand o).uses ∧
      (g.operand o).defs = (f.operand o).defs) : Tracked g :=
  ht.congr h.size_le hlists fun x => by simp [h.operation]

theorem operandsKept : OperandsKept f g := ⟨h.size_le, fun _ => h.kind_eq, fun _ => h.ty_eq⟩

end

end Extends

/-- A function whose operands are those of `f` and one more. -/
structure OneMore (f : Function) (kind : OperandKind) (ty : Ty) (g : Function) : Prop where
  operations : g.operations = f.operations
  blocks : g.blocks = f.blocks
  operands : g.operands = f.operands.push ⟨kind, ty, [], []⟩
  guestAddress : g.guestAddress = f.guestAddress

namespace OneMore

variable {kind : OperandKind} {ty : Ty}

section

variable (h : OneMore f kind ty g)

include h

theorem size : g.operands.size = f.operands.size + 1 := by
  rw [h.operands, Array.size_push]

theorem lt_size : f.operands.size < g.operands.size :=
  h.size ▸ Nat.lt_succ_self _

theorem dest_lt : ∀ d, some (OperandId.mk f.operands.size) = some d →
    d.index < g.operands.size := by
  rintro _ ⟨⟩
  exact h.lt_size

theorem operand (o : OperandId) :
    g.operand o = if o = ⟨f.operands.size⟩ then ⟨kind, ty, [], []⟩ else f.operand o := by
  obtain ⟨j⟩ := o
  simp only [Function.operand, h.operands, Array.getD_eq_getD_getElem?, Array.getElem?_push]
  split <;> simp_all

theorem operand_new : g.operand ⟨f.operands.size⟩ = ⟨kind, ty, [], []⟩ :=
  (h.operand _).trans (if_pos rfl)

theorem operand_old {o : OperandId} (ho : o.index < f.operands.size) :
    g.operand o = f.operand o := by
  refine (h.operand o).trans (if_neg ?_)
  rintro rfl
  exact lt_irrefl _ ho

/-- Each operand of `g` is one of `f` or the new one. -/
theorem cases {o : OperandId} (ho : o.index < g.operands.size) :
    (o.index < f.operands.size ∧ g.operand o = f.operand o) ∨
      (o = ⟨f.operands.size⟩ ∧ g.operand o = ⟨kind, ty, [], []⟩) := by
  rw [h.size] at ho
  rcases Nat.lt_succ_iff_lt_or_eq.mp ho with hlt | heq
  · exact .inl ⟨hlt, h.operand_old hlt⟩
  · have ho' : o = ⟨f.operands.size⟩ := by
      exact congrArg OperandId.mk heq
    subst ho'
    exact .inr ⟨rfl, h.operand_new⟩

theorem grows : Extends f g :=
  ⟨h.operations, h.blocks, by rw [h.size]; omega, fun _ ho => h.operand_old ho, h.guestAddress⟩

theorem program : g.program = f.program.withOperand ⟨f.operands.size⟩ kind ty := by
  refine Program.ext h.grows.code_eq h.grows.stmt_eq (funext fun o => ?_) (funext fun o => ?_)
    h.grows.preds_eq
  · rw [Program.kind_withOperand]
    refine (congrArg Operand.kind (h.operand o)).trans ?_
    split <;> rfl
  · rw [Program.ty_withOperand]
    refine (congrArg Operand.ty (h.operand o)).trans ?_
    split <;> rfl

theorem tracked (ht : Tracked f) : Tracked g := by
  refine h.grows.tracked ht fun o => ?_
  rw [h.operand]
  split
  next ho =>
    rw [f.operand_of_size_le (ho ▸ le_rfl)]
    exact ⟨rfl, rfl⟩
  · exact ⟨rfl, rfl⟩

/-- Members of a table after the new operand got an entry, if it is of the kind listed. -/
theorem mem_iff {P : Operand → Prop} {m : OperandId → Prop}
    (hm : ∀ o, m o ↔ o.index < f.operands.size ∧ P (f.operand o)) (o : OperandId) :
    (m o ∨ (o = ⟨f.operands.size⟩ ∧ P ⟨kind, ty, [], []⟩)) ↔
      o.index < g.operands.size ∧ P (g.operand o) := by
  constructor
  · rintro (ho | ⟨rfl, hP⟩)
    · obtain ⟨hlt, hP⟩ := (hm o).mp ho
      exact ⟨hlt.trans_le h.grows.size_le, by rw [h.operand_old hlt]; exact hP⟩
    · exact ⟨by rw [h.size]; exact Nat.lt_succ_self _, by rw [h.operand_new]; exact hP⟩
  · rintro ⟨hlt, hP⟩
    rcases h.cases hlt with ⟨hlt, heq⟩ | ⟨rfl, heq⟩
    · exact .inl ((hm o).mpr ⟨hlt, heq ▸ hP⟩)
    · exact .inr ⟨rfl, heq ▸ hP⟩

end

end OneMore

/-- The tables stay exact if the one that lists the kind of the new operand gets an entry for it. -/
theorem OneMore.interned (h : OneMore f kind ty g) (hi : Interned f)
    (hcount : f.localCount ≤ g.localCount)
    (hlocal : ∀ i, kind = .local_ i → i = f.localCount ∧ i < g.localCount)
    (hfits : ∀ v, kind = .constant v → v &&& ty.mask = v)
    (hconstants : ∀ v t o, ((v, t), o) ∈ g.constants ↔
      ((v, t), o) ∈ f.constants ∨ (o = ⟨f.operands.size⟩ ∧ kind = .constant v ∧ ty = t))
    (hregisters : ∀ r o, (r, o) ∈ g.registers ↔
      (r, o) ∈ f.registers ∨ (o = ⟨f.operands.size⟩ ∧ kind = .register r))
    (hundefined : ∀ t o, (t, o) ∈ g.undefined ↔
      (t, o) ∈ f.undefined ∨ (o = ⟨f.operands.size⟩ ∧ kind = .undefined ∧ ty = t))
    (hnc : (g.constants.map Prod.fst).Nodup) (hnr : (g.registers.map Prod.fst).Nodup)
    (hnu : (g.undefined.map Prod.fst).Nodup) : Interned g where
  local_lt o i ho hk := by
    rcases h.cases ho with ⟨hlt, heq⟩ | ⟨rfl, heq⟩
    · exact (hi.local_lt o i hlt (heq ▸ hk)).trans_le hcount
    · rw [heq] at hk
      exact (hlocal i hk).2
  local_inj o p i ho hp hko hkp := by
    have hnew : ∀ q, q.index < f.operands.size → (f.operand q).kind = .local_ i →
        kind ≠ .local_ i := by
      intro q hq hkq hk
      have := hi.local_lt q i hq hkq
      rw [(hlocal i hk).1] at this
      exact lt_irrefl _ this
    rcases h.cases ho with ⟨holt, hoeq⟩ | ⟨rfl, hoeq⟩
    · rcases h.cases hp with ⟨hplt, hpeq⟩ | ⟨rfl, hpeq⟩
      · exact hi.local_inj o p i holt hplt (hoeq ▸ hko) (hpeq ▸ hkp)
      · rw [hpeq] at hkp
        exact absurd hkp (hnew o holt (hoeq ▸ hko))
    · rcases h.cases hp with ⟨hplt, hpeq⟩ | ⟨rfl, hpeq⟩
      · rw [hoeq] at hko
        exact absurd hko (hnew p hplt (hpeq ▸ hkp))
      · rfl
  constant_fits o v ho hk := by
    rcases h.cases ho with ⟨hlt, heq⟩ | ⟨rfl, heq⟩ <;> rw [heq] at hk ⊢
    · exact hi.constant_fits o v hlt hk
    · exact hfits v hk
  mem_constants v t o := (hconstants v t o).trans
    (h.mem_iff (P := fun x => x.kind = .constant v ∧ x.ty = t) (hi.mem_constants v t) o)
  mem_registers r o := (hregisters r o).trans
    (h.mem_iff (P := fun x => x.kind = .register r) (hi.mem_registers r) o)
  mem_undefined t o := (hundefined t o).trans
    (h.mem_iff (P := fun x => x.kind = .undefined ∧ x.ty = t) (hi.mem_undefined t) o)
  nodup_constants := hnc
  nodup_registers := hnr
  nodup_undefined := hnu

theorem OneMore.wf (h : OneMore f kind ty g) (hf : f.WellFormed) (hi : Interned g) : g.WellFormed :=
  (h.grows.layout hf.layout).wf (h.tracked hf.tracked) hi

theorem oneMore_newLocal (ty : Ty) : OneMore f (.local_ f.localCount) ty (f.newLocal ty).2 :=
  ⟨rfl, rfl, rfl, rfl⟩

theorem WellFormed.newLocal (h : f.WellFormed) (ty : Ty) : (f.newLocal ty).2.WellFormed := by
  have hi := h.interned
  refine (oneMore_newLocal ty).wf h ((oneMore_newLocal ty).interned hi (Nat.le_succ _)
    ?_ ?_ ?_ ?_ ?_ hi.nodup_constants hi.nodup_registers hi.nodup_undefined)
  all_goals
    simp [Function.newLocal, addOperand]

/-- What looking up the operand of a constant comes to: the operand exists, and nothing else
changes. -/
theorem WellFormed.constant (h : f.WellFormed) (value : UInt64) (ty : Ty) :
    (f.constant value ty).2.WellFormed ∧ Extends f (f.constant value ty).2 ∧
      (f.constant value ty).2.registers = f.registers ∧
      (f.constant value ty).1.index < (f.constant value ty).2.operands.size ∧
      (f.constant value ty).2.program.kind (f.constant value ty).1 = .constant (value &&& ty.mask) ∧
      (f.constant value ty).2.program.ty (f.constant value ty).1 = ty := by
  have hi := h.interned
  rw [Function.constant]
  cases hfind : f.constants.lookup (value &&& ty.mask, ty) with
  | some id =>
    obtain ⟨hlt, hkind, hty⟩ := (hi.mem_constants _ _ _).mp (mem_of_lookup hfind)
    exact ⟨h, .refl f, rfl, hlt, hkind, hty⟩
  | none =>
    have hmore : OneMore f (.constant (value &&& ty.mask)) ty
        { (f.addOperand (.constant (value &&& ty.mask)) ty).2 with
          constants := ((value &&& ty.mask, ty), ⟨f.operands.size⟩) :: f.constants } :=
      ⟨rfl, rfl, rfl, rfl⟩
    refine ⟨hmore.wf h (hmore.interned hi le_rfl ?_ ?_ ?_ ?_ ?_ ?_
      hi.nodup_registers hi.nodup_undefined), hmore.grows, rfl, hmore.lt_size,
      congrArg Operand.kind hmore.operand_new, congrArg Operand.ty hmore.operand_new⟩
    · rintro i ⟨⟩
    · rintro v ⟨⟩
      rw [UInt64.and_assoc, UInt64.and_self]
    · simp only [mem_cons, Prod.mk.injEq, OperandKind.constant.injEq]
      tauto
    · simp [addOperand]
    · simp [addOperand]
    · exact nodup_cons.mpr ⟨not_mem_of_lookup hfind, hi.nodup_constants⟩

/-- What looking up the operand of a register comes to. -/
theorem WellFormed.register (h : f.WellFormed) (reg : GuestReg) (ty : Ty) :
    (f.register reg ty).2.WellFormed ∧ Extends f (f.register reg ty).2 ∧
      (f.register reg ty).1.index < (f.register reg ty).2.operands.size ∧
      (f.register reg ty).2.program.kind (f.register reg ty).1 = .register reg := by
  have hi := h.interned
  rw [Function.register]
  cases hfind : f.registers.lookup reg with
  | some id =>
    obtain ⟨hlt, hkind⟩ := (hi.mem_registers _ _).mp (mem_of_lookup hfind)
    exact ⟨h, .refl f, hlt, hkind⟩
  | none =>
    have hmore : OneMore f (.register reg) ty { (f.addOperand (.register reg) ty).2 with
        registers := f.registers ++ [(reg, ⟨f.operands.size⟩)] } := ⟨rfl, rfl, rfl, rfl⟩
    refine ⟨hmore.wf h (hmore.interned hi le_rfl ?_ ?_ ?_ ?_ ?_
      hi.nodup_constants ?_ hi.nodup_undefined), hmore.grows, hmore.lt_size,
      congrArg Operand.kind hmore.operand_new⟩
    · rintro i ⟨⟩
    · rintro v ⟨⟩
    · simp [addOperand]
    · simp only [mem_append, mem_singleton, Prod.mk.injEq, OperandKind.register.injEq]
      tauto
    · simp [addOperand]
    · rw [map_append, nodup_append]
      refine ⟨hi.nodup_registers, nodup_singleton _, ?_⟩
      rintro a ha b hb rfl
      rw [map_singleton, mem_singleton] at hb
      subst hb
      exact not_mem_of_lookup hfind ha

/-! ### New functions and blocks -/

theorem wf_ofAddress (address : UInt64) : (ofAddress address).WellFormed := by
  have hop : ∀ id, (ofAddress address).operation id = default := fun _ => rfl
  have huses : ∀ o, ((ofAddress address).operand o).uses = [] := fun _ => rfl
  have hdefs : ∀ o, ((ofAddress address).operand o).defs = [] := fun _ => rfl
  have hblock : ∀ b, (ofAddress address).block b = ⟨none, none, []⟩ := by
    rintro ⟨_ | i⟩ <;> rfl
  have hlayout : Layout (ofAddress address) fun _ => [] := by
    refine ⟨?_, ?_, fun _ => trivial, fun _ => nodup_nil, ?_, ?_, ?_⟩
    all_goals simp [hblock, hop]
  refine hlayout.wf ?_ ?_
  · refine ⟨?_, ?_, ?_, ?_, ?_, ?_⟩
    all_goals simp [hop, huses, hdefs]
  · refine ⟨?_, ?_, ?_, ?_, ?_, ?_, nodup_nil, nodup_nil, nodup_nil⟩
    all_goals simp [ofAddress]

theorem block_addBlock (b : BlockId) : f.addBlock.2.block b = f.block b := by
  obtain ⟨i⟩ := b
  simp only [addBlock, block, Array.getD_eq_getD_getElem?, Array.getElem?_push]
  split
  next h =>
    subst h
    rw [Array.getElem?_eq_none le_rfl]
    rfl
  · rfl

@[simp] theorem size_addBlock : f.addBlock.2.blocks.size = f.blocks.size + 1 := by
  simp [addBlock]

theorem program_addBlock : f.addBlock.2.program = f.program := by
  refine Program.ext (funext fun b => ?_) rfl rfl rfl (funext fun b => ?_)
  · change f.addBlock.2.chain _ (f.addBlock.2.block b).first = f.chain _ (f.block b).first
    rw [block_addBlock]
    exact chain_congr (f := f) (g := f.addBlock.2) (fun _ => rfl) _ _
  · exact congrArg BasicBlock.predecessors (block_addBlock b)

theorem WellFormed.addBlock (h : f.WellFormed) : f.addBlock.2.WellFormed := by
  have hlayout : Layout f.addBlock.2 f.program.code :=
    h.layout.congr (fun b => by simp [block_addBlock]) fun id => ⟨rfl, rfl, rfl, rfl⟩
  refine hlayout.wf ?_ ?_
  · exact ⟨h.tracked.uses, h.tracked.defs, h.tracked.nodup_uses, h.tracked.nodup_defs,
      h.tracked.source_lt, h.tracked.dest_lt⟩
  · have hi := h.interned
    exact ⟨hi.local_lt, hi.local_inj, hi.constant_fits, hi.mem_constants, hi.mem_registers,
      hi.mem_undefined, hi.nodup_constants, hi.nodup_registers, hi.nodup_undefined⟩

end Function

end Dynarec.IR
