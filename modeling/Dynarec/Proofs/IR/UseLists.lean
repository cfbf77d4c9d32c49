import Dynarec.Proofs.IR.Links

/-!
# Use and definition lists

Every operand lists the operations that read it and those that write it. The lists are exact: they
hold the live operations that mention the operand, each once.
-/

namespace Dynarec.IR.Function

open List Operation

variable (f : Function)

/-! ### What changes of operations and blocks leave alone -/

theorem samePools_modifyOperation (id : OpId) (g : Operation → Operation) :
    SamePools f (f.modifyOperation id g) :=
  ⟨rfl, rfl, fun _ => rfl, fun _ => rfl, fun _ => rfl, rfl, rfl, rfl, rfl, rfl⟩

theorem samePools_modifyBlock (id : BlockId) (g : BasicBlock → BasicBlock)
    (hpreds : ∀ blk, (g blk).predecessors = blk.predecessors) :
    SamePools f (f.modifyBlock id g) := by
  refine ⟨rfl, f.size_modifyBlock id g, fun _ => rfl, fun _ => rfl, fun b => ?_, rfl, rfl, rfl, rfl,
    rfl⟩
  rw [predecessors, block_modifyBlock]
  split
  · exact hpreds _
  · rfl

theorem samePools_linkForward (b : BlockId) (prev next : Option OpId) :
    SamePools f (f.linkForward b prev next) := by
  cases prev with
  | none => exact f.samePools_modifyBlock b _ fun _ => rfl
  | some p => exact f.samePools_modifyOperation p _

theorem samePools_linkBackward (b : BlockId) (prev next : Option OpId) :
    SamePools f (f.linkBackward b prev next) := by
  cases next with
  | none => exact f.samePools_modifyBlock b _ fun _ => rfl
  | some n => exact f.samePools_modifyOperation n _

section Create

variable (b : BlockId) (anchor : OpId) (inst : Instruction) (dest : Option OperandId)
  (sources : List OperandId)

theorem samePools_create : SamePools f (f.create b inst dest sources).2 :=
  have hpush : SamePools f (f.withOperation (.fresh b inst dest sources)) :=
    ⟨rfl, rfl, fun _ => rfl, fun _ => rfl, fun _ => rfl, rfl, rfl, rfl, rfl, rfl⟩
  hpush.trans (f.relisted_create b inst dest sources).pools

theorem samePools_pushBack : SamePools f (f.pushBack b inst dest sources).2 :=
  (((f.samePools_create b inst dest sources).trans (samePools_modifyOperation _ _ _)).trans
    (samePools_linkForward _ _ _ _)).trans (samePools_modifyBlock _ _ _ fun _ => rfl)

theorem samePools_pushBefore : SamePools f (f.pushBefore anchor inst dest sources).2 :=
  ((((f.samePools_create _ inst dest sources).trans (samePools_modifyOperation _ _ _)).trans
    (samePools_modifyOperation _ _ _)).trans (samePools_modifyOperation _ _ _)).trans
    (samePools_linkForward _ _ _ _)

end Create

theorem samePools_remove (id : OpId) : SamePools f (f.remove id) := by
  cases hlive : (f.operation id).live with
  | false =>
    rw [remove, if_pos (by simp [hlive])]
    exact .refl f
  | true =>
    rw [remove_eq hlive]
    exact (((f.samePools_linkForward _ _ _).trans (samePools_linkBackward _ _ _ _)).trans
      relisted_unlinked.pools).trans (samePools_modifyOperation _ _ _)

/-! ### Members of the lists -/

section Members

variable {o p : OperandId} {id x : OpId} {edit : Operand → Operand}

/-- An operation joins a list of one operand. -/
theorem mem_list_add (list : Operand → List OpId)
    (hedit : ∀ q, x ∈ list (edit q) ↔ x ∈ list q ∨ x = id) :
    x ∈ list ((f.modifyOperand o edit).operand p) ↔
      x ∈ list (f.operand p) ∨ (p = o ∧ p.index < f.operands.size ∧ x = id) := by
  rw [operand_modifyOperand, ← and_assoc]
  split
  next h =>
    obtain ⟨rfl, hlt⟩ := h
    simp [hedit, hlt]
  next h => simp [h]

/-- An operation leaves a list of one operand. -/
theorem mem_list_erase (list : Operand → List OpId) (hempty : list default = [])
    (hedit : ∀ q, x ∈ list (edit q) ↔ x ∈ list q ∧ x ≠ id) :
    x ∈ list ((f.modifyOperand o edit).operand p) ↔ x ∈ list (f.operand p) ∧ ¬(p = o ∧ x = id) := by
  rw [operand_modifyOperand]
  split
  next h => simp [hedit, h.1]
  next h =>
    refine ⟨fun hx => ⟨hx, ?_⟩, fun hx => hx.1⟩
    rintro ⟨rfl, -⟩
    rw [f.operand_of_size_le (by simpa using h), hempty] at hx
    cases hx

theorem mem_uses_addUse : x ∈ ((f.addUse o id).operand p).uses ↔
    x ∈ (f.operand p).uses ∨ (p = o ∧ p.index < f.operands.size ∧ x = id) :=
  f.mem_list_add Operand.uses fun q => by simp [or_comm]

theorem mem_uses_eraseUse : x ∈ ((f.eraseUse o id).operand p).uses ↔
    x ∈ (f.operand p).uses ∧ ¬(p = o ∧ x = id) :=
  f.mem_list_erase Operand.uses rfl fun q => by simp

@[simp] theorem defs_addUse : ((f.addUse o id).operand p).defs = (f.operand p).defs :=
  f.proj_modifyOperand o p Operand.defs fun _ => rfl

@[simp] theorem defs_eraseUse : ((f.eraseUse o id).operand p).defs = (f.operand p).defs :=
  f.proj_modifyOperand o p Operand.defs fun _ => rfl

variable (sources : List OperandId) (dest : Option OperandId)

theorem mem_defs_addDest : x ∈ ((f.addDest id dest).operand p).defs ↔
    x ∈ (f.operand p).defs ∨ (dest = some p ∧ p.index < f.operands.size ∧ x = id) := by
  cases dest with
  | none => simp [addDest]
  | some d =>
    rw [Option.some.injEq, eq_comm]
    exact f.mem_list_add Operand.defs fun q => by simp

theorem mem_defs_eraseDest : x ∈ ((f.eraseDest id dest).operand p).defs ↔
    x ∈ (f.operand p).defs ∧ ¬(dest = some p ∧ x = id) := by
  cases dest with
  | none => simp [eraseDest]
  | some d =>
    rw [Option.some.injEq, eq_comm]
    exact f.mem_list_erase Operand.defs rfl fun q => by simp

@[simp] theorem uses_addDest : ((f.addDest id dest).operand p).uses = (f.operand p).uses := by
  cases dest with
  | none => rfl
  | some d => exact f.proj_modifyOperand d p Operand.uses fun _ => rfl

@[simp] theorem uses_eraseDest : ((f.eraseDest id dest).operand p).uses = (f.operand p).uses := by
  cases dest with
  | none => rfl
  | some d => exact f.proj_modifyOperand d p Operand.uses fun _ => rfl

theorem nodup_defs_addDest (h : (f.operand p).defs.Nodup) (hnot : id ∉ (f.operand p).defs) :
    ((f.addDest id dest).operand p).defs.Nodup := by
  cases dest with
  | none => exact h
  | some d =>
    rw [addDest, addDef, operand_modifyOperand]
    split
    · refine nodup_append.mpr ⟨h, nodup_singleton _, ?_⟩
      rintro a ha b hb rfl
      rw [mem_singleton] at hb
      exact hnot (hb ▸ ha)
    · exact h

theorem nodup_defs_eraseDest (h : (f.operand p).defs.Nodup) :
    ((f.eraseDest id dest).operand p).defs.Nodup := by
  cases dest with
  | none => exact h
  | some d =>
    exact f.keeps_modifyOperand d p (P := fun q => q.defs.Nodup) (fun _ h => h.filter _) h

theorem mem_uses_addUses : x ∈ ((f.addUses id sources).operand p).uses ↔
    x ∈ (f.operand p).uses ∨ (p ∈ sources ∧ p.index < f.operands.size ∧ x = id) := by
  induction sources generalizing f with
  | nil => simp [addUses]
  | cons source rest ih =>
    have hstep := ih (f.addUse source id)
    rw [mem_uses_addUse, (f.relisted_addUse source id).pools.operands] at hstep
    simp only [mem_cons]
    tauto

theorem mem_uses_eraseUses : x ∈ ((f.eraseUses id sources).operand p).uses ↔
    x ∈ (f.operand p).uses ∧ ¬(p ∈ sources ∧ x = id) := by
  induction sources generalizing f with
  | nil => simp [eraseUses]
  | cons source rest ih =>
    have hstep := ih (f.eraseUse source id)
    rw [mem_uses_eraseUse] at hstep
    simp only [mem_cons]
    tauto

@[simp] theorem defs_addUses : ((f.addUses id sources).operand p).defs = (f.operand p).defs :=
  foldlRecOn (motive := fun g : Function => (g.operand p).defs = (f.operand p).defs) sources _ rfl
    fun g hg _ _ => g.defs_addUse.trans hg

@[simp] theorem defs_eraseUses : ((f.eraseUses id sources).operand p).defs = (f.operand p).defs :=
  foldlRecOn (motive := fun g : Function => (g.operand p).defs = (f.operand p).defs) sources _ rfl
    fun g hg _ _ => g.defs_eraseUse.trans hg

end Members

/-! ### Exactness -/

/-- The lists of every operand hold just the live operations that mention it, each once, and no
operation mentions an operand that does not exist. -/
structure Tracked (f : Function) : Prop where
  uses : ∀ o id, id ∈ (f.operand o).uses ↔
    (f.operation id).live = true ∧ o ∈ (f.operation id).sources
  defs : ∀ o id, id ∈ (f.operand o).defs ↔
    (f.operation id).live = true ∧ (f.operation id).dest = some o
  nodup_uses : ∀ o, (f.operand o).uses.Nodup
  nodup_defs : ∀ o, (f.operand o).defs.Nodup
  source_lt : ∀ id, (f.operation id).live = true →
    ∀ o ∈ (f.operation id).sources, o.index < f.operands.size
  dest_lt : ∀ id, (f.operation id).live = true →
    ∀ o, (f.operation id).dest = some o → o.index < f.operands.size

namespace Tracked

variable {f}

section

variable (h : Tracked f)

include h

/-- An edit of one operation keeps the lists exact if it lists that operation where it is mentioned
now and leaves the entries of the others alone. -/
theorem change {g : Function} (id : OpId) (hsize : g.operands.size = f.operands.size)
    (hop : ∀ x, x ≠ id → (g.operation x).live = (f.operation x).live ∧
      (g.operation x).sources = (f.operation x).sources ∧
      (g.operation x).dest = (f.operation x).dest)
    (huses : ∀ o x, x ∈ (g.operand o).uses ↔ if x = id then
      (g.operation id).live = true ∧ o ∈ (g.operation id).sources else x ∈ (f.operand o).uses)
    (hdefs : ∀ o x, x ∈ (g.operand o).defs ↔ if x = id then
      (g.operation id).live = true ∧ (g.operation id).dest = some o else x ∈ (f.operand o).defs)
    (hnu : ∀ o, (g.operand o).uses.Nodup) (hnd : ∀ o, (g.operand o).defs.Nodup)
    (hsource : (g.operation id).live = true →
      ∀ o ∈ (g.operation id).sources, o.index < f.operands.size)
    (hdest : (g.operation id).live = true →
      ∀ o, (g.operation id).dest = some o → o.index < f.operands.size) : Tracked g where
  uses o x := by
    rw [huses]
    split
    next hx => rw [hx]
    next hx =>
      obtain ⟨hl, hs, -⟩ := hop x hx
      rw [hl, hs]
      exact h.uses o x
  defs o x := by
    rw [hdefs]
    split
    next hx => rw [hx]
    next hx =>
      obtain ⟨hl, -, hd⟩ := hop x hx
      rw [hl, hd]
      exact h.defs o x
  nodup_uses := hnu
  nodup_defs := hnd
  source_lt x hx o ho := by
    rw [hsize]
    by_cases hid : x = id
    · subst hid
      exact hsource hx o ho
    · obtain ⟨hl, hs, -⟩ := hop x hid
      exact h.source_lt x (hl ▸ hx) o (hs ▸ ho)
  dest_lt x hx o ho := by
    rw [hsize]
    by_cases hid : x = id
    · subst hid
      exact hdest hx o ho
    · obtain ⟨hl, -, hd⟩ := hop x hid
      exact h.dest_lt x (hl ▸ hx) o (hd ▸ ho)

/-- Exactness looks at nothing but the lists and what the operations mention. -/
theorem congr {g : Function} (hsize : f.operands.size ≤ g.operands.size)
    (hlists : ∀ o, (g.operand o).uses = (f.operand o).uses ∧
      (g.operand o).defs = (f.operand o).defs)
    (hop : ∀ x, (g.operation x).live = (f.operation x).live ∧
      (g.operation x).sources = (f.operation x).sources ∧
      (g.operation x).dest = (f.operation x).dest) : Tracked g where
  uses o x := by
    rw [(hlists o).1, (hop x).1, (hop x).2.1]
    exact h.uses o x
  defs o x := by
    rw [(hlists o).2, (hop x).1, (hop x).2.2]
    exact h.defs o x
  nodup_uses o := (hlists o).1 ▸ h.nodup_uses o
  nodup_defs o := (hlists o).2 ▸ h.nodup_defs o
  source_lt x hx o ho :=
    Nat.lt_of_lt_of_le (h.source_lt x ((hop x).1 ▸ hx) o ((hop x).2.1 ▸ ho)) hsize
  dest_lt x hx o ho :=
    Nat.lt_of_lt_of_le (h.dest_lt x ((hop x).1 ▸ hx) o ((hop x).2.2 ▸ ho)) hsize

theorem mem_defs_iff {id : OpId} (hlive : (f.operation id).live = true) (o : OperandId) (x : OpId) :
    x ∈ (f.operand o).defs ↔
      if x = id then (f.operation id).dest = some o else x ∈ (f.operand o).defs := by
  split
  next hx => simp [hx, h.defs, hlive]
  · rfl

theorem not_mem_uses_fresh (o : OperandId) : (⟨f.operations.size⟩ : OpId) ∉ (f.operand o).uses :=
  fun hmem => Nat.lt_irrefl _ (f.lt_size_of_live ((h.uses o _).mp hmem).1)

theorem not_mem_defs_fresh (o : OperandId) : (⟨f.operations.size⟩ : OpId) ∉ (f.operand o).defs :=
  fun hmem => Nat.lt_irrefl _ (f.lt_size_of_live ((h.defs o _).mp hmem).1)

end

end Tracked

/-! ### Insertion -/

section Insert

variable {f} (b : BlockId) (inst : Instruction) (dest : Option OperandId) (sources : List OperandId)

theorem Tracked.create (h : Tracked f) (hsources : ∀ o ∈ sources, o.index < f.operands.size)
    (hdest : ∀ d, dest = some d → d.index < f.operands.size) :
    Tracked (f.create b inst dest sources).2 := by
  have hnew := (f.operation_create b inst dest sources ⟨f.operations.size⟩).trans (if_pos rfl)
  have hlt : ∀ o ∈ sources.take maxSources, o.index < f.operands.size := fun o ho =>
    hsources o (mem_of_mem_take ho)
  refine h.change ⟨f.operations.size⟩ (f.samePools_create b inst dest sources).operands
    (fun x hx => by rw [operation_create, if_neg hx]; exact ⟨rfl, rfl, rfl⟩) ?_ ?_ ?_ ?_ ?_ ?_
  · intro o x
    rw [hnew, sources_fresh, create_eq, uses_addDest]
    refine (mem_uses_addUses _ _).trans ?_
    change x ∈ (f.operand o).uses ∨ _ ∧ o.index < f.operands.size ∧ _ ↔ _
    split
    next hx =>
      subst hx
      simp only [h.not_mem_uses_fresh o, fresh, false_or, and_true, true_and]
      exact ⟨fun ho => ho.1, fun ho => ⟨ho, hlt o ho⟩⟩
    next hx => simp [hx]
  · intro o x
    rw [hnew, create_eq, mem_defs_addDest, defs_addUses, (relisted_addUses _ _ _).pools.operands]
    change x ∈ (f.operand o).defs ∨ _ ∧ o.index < f.operands.size ∧ _ ↔ _
    split
    next hx =>
      subst hx
      simp only [h.not_mem_defs_fresh o, fresh, false_or, and_true, true_and]
      exact ⟨fun ho => ho.1, fun ho => ⟨ho, hdest o ho⟩⟩
    next hx => simp [hx]
  · exact fun o => (f.relisted_create b inst dest sources).nodup_uses o (h.nodup_uses o)
  · intro o
    rw [create_eq]
    refine nodup_defs_addDest _ _ ?_ ?_
    · rw [defs_addUses]
      exact h.nodup_defs o
    · rw [defs_addUses]
      exact h.not_mem_defs_fresh o
  · intro _ o ho
    rw [hnew, sources_fresh] at ho
    exact hlt o ho
  · intro _ o ho
    rw [hnew] at ho
    exact hdest o ho

end Insert

/-! ### Changes of one operation -/

section Change

variable {f} {id : OpId} {i : Nat} {new o : OperandId}

theorem Tracked.remove (h : Tracked f) {code : BlockId → List OpId} (hl : Layout f code)
    (hlive : (f.operation id).live = true) : Tracked (f.remove id) := by
  have hop := hl.contents_remove hlive
  have hid : ((f.remove id).operation id).live = false := by simp [(hop id).1]
  have hoperand : ∀ o, (f.unlinked id).operand o = f.operand o := fun o => by
    simp only [operand, unlinked, operands_linkBackward, operands_linkForward]
  refine h.change id (f.samePools_remove id).operands
    (fun x hx => ⟨by simp [(hop x).1, hx], (hop x).2.2.2, (hop x).2.2.1⟩) ?_ ?_ ?_ ?_ ?_ ?_
  · intro o x
    rw [hid, remove_eq hlive, operand_modifyOperation, uses_eraseDest, mem_uses_eraseUses, hoperand]
    split
    next hx =>
      subst hx
      simpa using fun hmem => ((h.uses o x).mp hmem).2
    next hx => simp [hx]
  · intro o x
    rw [hid, remove_eq hlive, operand_modifyOperation, mem_defs_eraseDest, defs_eraseUses, hoperand]
    split
    next hx =>
      subst hx
      simpa using fun hmem => ((h.defs o x).mp hmem).2
    next hx => simp [hx]
  · intro o
    rw [remove_eq hlive]
    exact relisted_unlinked.nodup_uses o (by rw [hoperand]; exact h.nodup_uses o)
  · intro o
    rw [remove_eq hlive]
    refine nodup_defs_eraseDest _ _ ?_
    rw [defs_eraseUses, hoperand]
    exact h.nodup_defs o
  all_goals
    intro hl
    rw [hid] at hl
    cases hl

/-- `g` is `f` with another operation under `id`. No link and no block differs. -/
structure Restates (f : Function) (id : OpId) (op : Operation) (g : Function) : Prop where
  pools : SamePools f g
  blocks : g.blocks = f.blocks
  size : g.operations.size = f.operations.size
  operation : ∀ x, g.operation x = if x = id then op else f.operation x
  nodup_uses : ∀ o, (f.operand o).uses.Nodup → (g.operand o).uses.Nodup
  links : op.prev = (f.operation id).prev ∧ op.next = (f.operation id).next ∧
    op.live = (f.operation id).live ∧ op.block = (f.operation id).block

namespace Restates

variable {g : Function} {op : Operation}

/-- An edit takes the operation off some lists, changes it and puts it on others. -/
theorem of_modify {f' : Function} {e : Operation → Operation} (hf : Relisted f f')
    (hg : Relisted (f'.modifyOperation id e) g) (hlt : id.index < f.operations.size)
    (hlinks : (e (f.operation id)).prev = (f.operation id).prev ∧
      (e (f.operation id)).next = (f.operation id).next ∧
      (e (f.operation id)).live = (f.operation id).live ∧
      (e (f.operation id)).block = (f.operation id).block) :
    Restates f id (e (f.operation id)) g where
  pools := (hf.pools.trans (samePools_modifyOperation _ _ _)).trans hg.pools
  blocks := hg.blocks.trans hf.blocks
  size := by rw [hg.operations, size_modifyOperation, hf.operations]
  operation x := by
    rw [hg.operation, operation_modifyOperation, hf.operation, hf.operations]
    by_cases hx : x = id
    · subst hx
      rw [if_pos ⟨rfl, hlt⟩, if_pos rfl]
    · rw [if_neg (fun h => hx h.1), if_neg hx]
  nodup_uses o ho := hg.nodup_uses o (hf.nodup_uses o ho)
  links := hlinks

theorem self (h : Restates f id op g) : g.operation id = op := (h.operation id).trans (if_pos rfl)

/-- The lists stay exact if the operation is listed where it is mentioned now. -/
theorem tracked (h : Restates f id op g) (ht : Tracked f) (hlive : (f.operation id).live = true)
    (huses : ∀ o x, x ∈ (g.operand o).uses ↔
      if x = id then o ∈ op.sources else x ∈ (f.operand o).uses)
    (hdefs : ∀ o x, x ∈ (g.operand o).defs ↔
      if x = id then op.dest = some o else x ∈ (f.operand o).defs)
    (hnodup : ∀ o, (g.operand o).defs.Nodup) (hsource : ∀ o ∈ op.sources, o.index < f.operands.size)
    (hdest : ∀ o, op.dest = some o → o.index < f.operands.size) : Tracked g := by
  have hop : op.live = true := h.links.2.2.1.trans hlive
  refine ht.change id h.pools.operands (fun x hx => ?_) (fun o x => ?_) (fun o x => ?_)
    (fun o => h.nodup_uses o (ht.nodup_uses o)) hnodup ?_ ?_
  · rw [h.operation, if_neg hx]
    exact ⟨rfl, rfl, rfl⟩
  · simp only [huses, h.self, hop, true_and]
  · simp only [hdefs, h.self, hop, true_and]
  · rw [h.self]
    exact fun _ => hsource
  · rw [h.self]
    exact fun _ => hdest

end Restates

theorem Operation.sources_setSlot (op : Operation) (i : Nat) (new : OperandId) :
    Operation.sources { op with slots := op.slots.setIfInBounds i new } =
      op.sources.set i new := by
  simp [Operation.sources, take_set]

theorem mem_set_of_ne {l : List OperandId} (hi : i < l.length) (hnew : o ≠ new) (hold : o ≠ l[i]) :
    o ∈ l.set i new ↔ o ∈ l := by
  refine ⟨fun h => (mem_or_eq_of_mem_set h).resolve_right hnew, fun h => ?_⟩
  obtain ⟨j, hj, rfl⟩ := mem_iff_getElem.mp h
  have hij : i ≠ j := by
    rintro rfl
    exact hold rfl
  exact mem_iff_getElem.mpr ⟨j, by simpa using hj, by simp [getElem_set_ne hij]⟩

theorem Operation.getD_slots {op : Operation} (hi : i < op.sources.length) :
    op.slots.toList.getD i ⟨0⟩ = op.sources[i] := by
  have hlen : i < op.slots.toList.length := by
    simp only [Operation.sources, length_take] at hi
    omega
  rw [getD_eq_getElem?_getD, getElem?_eq_getElem hlen]
  simp [Operation.sources]

/-- A change of a slot in use. -/
theorem restates_setSource (hi : i < (f.operation id).sources.length) (new : OperandId) :
    Restates f id { f.operation id with slots := (f.operation id).slots.setIfInBounds i new }
      (f.setSource id i new) := by
  have hlt : id.index < f.operations.size := by
    by_contra hge
    rw [f.operation_of_size_le (by omega)] at hi
    simp [Operation.sources, default] at hi
  rw [setSource]
  split
  next hold =>
    have hself : (f.operation id).slots.setIfInBounds i new = (f.operation id).slots := by
      rw [← hold]
      apply Vector.ext
      intro j hj
      rw [Vector.getElem_setIfInBounds]
      split
      next hji =>
        subst hji
        simp [hj]
      · rfl
    rw [hself]
    refine ⟨.refl f, rfl, rfl, fun x => ?_, fun _ h => h, rfl, rfl, rfl, rfl⟩
    split
    next hx => rw [hx]
    · rfl
  · refine .of_modify (e := fun op => { op with slots := op.slots.setIfInBounds i new }) (.refl f)
      (Relisted.trans ?_ (relisted_addUse _ _ _)) hlt ⟨rfl, rfl, rfl, rfl⟩
    split
    · exact .refl _
    · exact relisted_eraseUse _ _ _

section

variable (hlive : (f.operation id).live = true)

include hlive

theorem Tracked.setSource (h : Tracked f) (hi : i < (f.operation id).sources.length)
    (hnew : new.index < f.operands.size) :
    Tracked (f.setSource id i new) := by
  by_cases hold : (f.operation id).sources[i] = new
  · rw [Function.setSource, if_pos (by rw [Operation.getD_slots hi]; exact hold)]
    exact h
  -- the slot changes: its old value stays a use if another slot holds it
  have huses : ∀ o x, x ∈ ((f.setSource id i new).operand o).uses ↔
      (x ∈ (f.operand o).uses ∧ ((f.operation id).sources[i] ∈ (f.operation id).sources.set i new ∨
        ¬(o = (f.operation id).sources[i] ∧ x = id))) ∨ (o = new ∧ x = id) := by
    intro o x
    have hslots := operation_modifyOperation f id id fun op =>
      { op with slots := op.slots.setIfInBounds i new }
    have hlt : o = new ∧ o.index < f.operands.size ∧ x = id ↔ o = new ∧ x = id :=
      ⟨fun hx => ⟨hx.1, hx.2.2⟩, fun hx => ⟨hx.1, hx.1 ▸ hnew, hx.2⟩⟩
    rw [if_pos ⟨rfl, f.lt_size_of_live hlive⟩] at hslots
    rw [Function.setSource, if_neg (by rw [Operation.getD_slots hi]; exact hold)]
    simp only [mem_uses_addUse, hslots, Operation.sources_setSlot, Operation.getD_slots hi,
      contains_iff_mem]
    split
    next hmem => simp [hmem, hlt]
    next hmem => simp [mem_uses_eraseUse, (relisted_eraseUse _ _ _).pools.operands, hmem, hlt]
  have hdefs : ∀ o, ((f.setSource id i new).operand o).defs = (f.operand o).defs := by
    rw [Function.setSource, if_neg (by rw [Operation.getD_slots hi]; exact hold)]
    simp only
    split <;> simp
  refine (restates_setSource hi new).tracked h hlive ?_ (fun o x => ?_)
    (fun o => hdefs o ▸ h.nodup_defs o) ?_ (h.dest_lt id hlive)
  · intro o x
    rw [huses, Operation.sources_setSlot]
    split
    next hx =>
      subst hx
      rw [h.uses o x]
      by_cases hon : o = new
      · subst hon
        simp [mem_set hi]
      · by_cases hoo : o = (f.operation x).sources[i]
        · simp [hlive, ← hoo, hon, hoo ▸ getElem_mem hi]
        · simp [hlive, hoo, hon, mem_set_of_ne hi hon hoo]
    next hx => simp [hx]
  · rw [hdefs]
    exact h.mem_defs_iff hlive o x
  · intro o ho
    rw [Operation.sources_setSlot] at ho
    rcases mem_or_eq_of_mem_set ho with ho | rfl
    · exact h.source_lt id hlive o ho
    · exact hnew

theorem restates_replaceSources (sources : List OperandId) :
    Restates f id { f.operation id with
      slots := pack (sources.take maxSources), count := (sources.take maxSources).length }
      (f.replaceSources id sources) :=
  .of_modify (e := fun op => { op with
      slots := pack (sources.take maxSources), count := (sources.take maxSources).length })
    (relisted_eraseUses _ _ _) (relisted_addUses _ _ _) (f.lt_size_of_live hlive)
    ⟨rfl, rfl, rfl, rfl⟩

theorem Tracked.replaceSources (h : Tracked f) {sources : List OperandId}
    (hsources : ∀ o ∈ sources, o.index < f.operands.size) :
    Tracked (f.replaceSources id sources) := by
  have hpack : Operation.sources { f.operation id with
      slots := pack (sources.take maxSources)
      count := (sources.take maxSources).length } = sources.take maxSources :=
    take_pack (length_take_le _ _)
  have hlt : ∀ o ∈ sources.take maxSources, o.index < f.operands.size := fun o ho =>
    hsources o (mem_of_mem_take ho)
  have hdefs (o) : ((f.replaceSources id sources).operand o).defs = (f.operand o).defs := by
    rw [Function.replaceSources, defs_addUses, operand_modifyOperation, defs_eraseUses]
  refine (restates_replaceSources hlive sources).tracked h hlive ?_ (fun o x => ?_)
    (fun o => hdefs o ▸ h.nodup_defs o) (fun o ho => hlt o (hpack ▸ ho)) (h.dest_lt id hlive)
  · intro o x
    rw [hpack, Function.replaceSources, mem_uses_addUses, operand_modifyOperation,
      mem_uses_eraseUses, operands_modifyOperation, (f.relisted_eraseUses id _).pools.operands]
    split
    next hx =>
      subst hx
      rw [h.uses o x]
      constructor
      · rintro (⟨⟨-, ho⟩, hnot⟩ | ⟨ho, -, -⟩)
        · exact absurd ⟨ho, rfl⟩ hnot
        · exact ho
      · exact fun ho => .inr ⟨ho, hlt o ho, rfl⟩
    next hx => simp [hx]
  · rw [hdefs]
    exact h.mem_defs_iff hlive o x

theorem restates_setInstruction (inst : Instruction) :
    Restates f id { f.operation id with inst } (f.setInstruction id inst) :=
  .of_modify (e := fun op => { op with inst }) (.refl f) (.refl _) (f.lt_size_of_live hlive)
    ⟨rfl, rfl, rfl, rfl⟩

theorem Tracked.setInstruction (h : Tracked f) (inst : Instruction) :
    Tracked (f.setInstruction id inst) := by
  refine h.congr (Nat.le_refl _) (fun _ => ⟨rfl, rfl⟩) fun x => ?_
  rw [(restates_setInstruction hlive inst).operation]
  split
  next hx =>
    subst hx
    exact ⟨rfl, rfl, rfl⟩
  · exact ⟨rfl, rfl, rfl⟩

end

theorem setDest_eq (dest : Option OperandId) : f.setDest id dest =
    ((f.eraseDest id (f.operation id).dest).modifyOperation id
      fun op => { op with dest }).addDest id dest := by
  cases dest <;> rfl

theorem restates_setDest (hlive : (f.operation id).live = true) (dest : Option OperandId) :
    Restates f id { f.operation id with dest } (f.setDest id dest) := by
  exact .of_modify (e := fun op => { op with dest }) (relisted_eraseDest _ _ _)
    (relisted_addDest _ _ _) (f.lt_size_of_live hlive) ⟨rfl, rfl, rfl, rfl⟩

/-- An operation is on no list of definitions once it is off that of its result. -/
theorem Tracked.mem_defs_eraseDest (h : Tracked f) (o : OperandId) (x : OpId) :
    x ∈ ((f.eraseDest id (f.operation id).dest).operand o).defs ↔
      x ∈ (f.operand o).defs ∧ x ≠ id := by
  rw [Function.mem_defs_eraseDest]
  refine ⟨fun hx => ⟨hx.1, ?_⟩, fun hx => ⟨hx.1, fun hx' => hx.2 hx'.2⟩⟩
  rintro rfl
  exact hx.2 ⟨((h.defs o x).mp hx.1).2, rfl⟩

theorem Tracked.setDest (h : Tracked f) (hlive : (f.operation id).live = true)
    {dest : Option OperandId} (hdest : ∀ d, dest = some d → d.index < f.operands.size) :
    Tracked (f.setDest id dest) := by
  refine (restates_setDest hlive dest).tracked h hlive ?_ ?_ ?_ (h.source_lt id hlive) hdest
  · intro o x
    rw [setDest_eq, uses_addDest, operand_modifyOperation, uses_eraseDest]
    split
    next hx =>
      rw [hx, h.uses]
      exact and_iff_right hlive
    · rfl
  · intro o x
    -- the operation leaves the list of the old result and joins that of the new one
    rw [setDest_eq, mem_defs_addDest, operand_modifyOperation, h.mem_defs_eraseDest,
      operands_modifyOperation, (relisted_eraseDest _ _ _).pools.operands]
    split
    next hx =>
      simp only [hx, ne_eq, not_true_eq_false, and_false, false_or, and_true]
      exact ⟨fun ho => ho.1, fun ho => ⟨ho, hdest o ho⟩⟩
    next hx => simp [hx]
  · intro o
    refine nodup_defs_addDest _ _ (nodup_defs_eraseDest _ _ (h.nodup_defs o)) fun hmem => ?_
    exact ((h.mem_defs_eraseDest o id).mp hmem).2 rfl

end Change

end Dynarec.IR.Function
