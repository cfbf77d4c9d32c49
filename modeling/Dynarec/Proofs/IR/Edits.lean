import Dynarec.IR.Checked
import Dynarec.Proofs.IR.Verified

/-!
# Sequences of edits

The editing interface keeps every list exact: the use and definition lists, the links within blocks
and the tables of interned operands. What is left for the checks to find is a block without a
terminator at its end, or with one before it, and a phi with the wrong number of sources.
-/

namespace Dynarec.IR

inductive Edit where
  | createBlock
  | newLocal (ty : Ty)
  | constant (value : UInt64) (ty : Ty)
  | register (reg : GuestReg) (ty : Ty)
  | undefined (ty : Ty)
  | append (b : BlockId) (inst : Instruction) (dest : Option OperandId) (sources : List OperandId)
  | prepend (b : BlockId) (inst : Instruction) (dest : Option OperandId) (sources : List OperandId)
  | insertBefore (anchor : OpId) (inst : Instruction) (dest : Option OperandId)
      (sources : List OperandId)
  | insertAfter (anchor : OpId) (inst : Instruction) (dest : Option OperandId)
      (sources : List OperandId)
  | remove (id : OpId)
  | setSource (id : OpId) (index : Nat) (new : OperandId)
  | setSources (id : OpId) (sources : List OperandId)
  | setInstruction (id : OpId) (inst : Instruction)
  | setDest (id : OpId) (dest : Option OperandId)
  | replaceAllUses (old new : OperandId)
deriving DecidableEq

def Edit.sourceCount : Edit → Nat
  | .append _ _ _ sources | .prepend _ _ _ sources | .insertBefore _ _ _ sources
  | .insertAfter _ _ _ sources | .setSources _ sources => sources.length
  | _ => 0

namespace Function

variable (f : Function)

def edit : Edit → Except CompileError Function
  | .createBlock => .ok f.addBlock.2
  | .newLocal ty => .ok (f.newLocal ty).2
  | .constant value ty => .ok (f.constant value ty).2
  | .register reg ty => .ok (f.register reg ty).2
  | .undefined ty => .ok (f.undefinedOperand ty).2
  | .append b inst dest sources => (f.append b inst dest sources).map (·.2)
  | .prepend b inst dest sources => (f.prepend b inst dest sources).map (·.2)
  | .insertBefore anchor inst dest sources => (f.insertBefore anchor inst dest sources).map (·.2)
  | .insertAfter anchor inst dest sources => (f.insertAfter anchor inst dest sources).map (·.2)
  | .remove id => .ok (f.remove id)
  | .setSource id index new => .ok (f.setSource id index new)
  | .setSources id sources => f.setSources id sources
  | .setInstruction id inst => .ok (f.setInstruction id inst)
  | .setDest id dest => .ok (f.setDest id dest)
  | .replaceAllUses old new => .ok (f.replaceAllUses old new)

/-- The operations of a call are live, its other identifiers exist, and an index is that of a
source. -/
def allows : Edit → Bool
  | .append b _ dest sources | .prepend b _ dest sources =>
    f.hasBlock b && f.hasOperands dest sources
  | .insertBefore anchor _ dest sources | .insertAfter anchor _ dest sources =>
    (f.operation anchor).live && f.hasOperands dest sources
  | .remove id | .setInstruction id _ => (f.operation id).live
  | .setSource id index new =>
    (f.operation id).live && index < (f.operation id).sources.length && f.hasOperand new
  | .setSources id sources => (f.operation id).live && sources.all f.hasOperand
  | .setDest id dest => (f.operation id).live && dest.all f.hasOperand
  | .replaceAllUses old new => f.hasOperand old && f.hasOperand new
  | _ => true

def after (e : Edit) : Function :=
  match f.edit e with
  | .ok g => g
  | .error _ => f

def afterAll (es : List Edit) : Function := es.foldl after f

def allowsAll : Function → List Edit → Bool
  | _, [] => true
  | f, e :: es => f.allows e && allowsAll (f.after e) es

variable {f} {sources : List OperandId} {id : OpId} {g : Function} {e : CompileError} {b : BlockId}

/-! ### One call -/

theorem WellFormed.undefinedOperand (h : f.WellFormed) (ty : Ty) :
    (f.undefinedOperand ty).2.WellFormed := by
  have hi := h.interned
  rw [Function.undefinedOperand]
  cases hfind : f.undefined.lookup ty with
  | some id => exact h
  | none =>
    have hmore : OneMore f .undefined ty { (f.addOperand .undefined ty).2 with
        undefined := (ty, ⟨f.operands.size⟩) :: f.undefined } := ⟨rfl, rfl, rfl, rfl⟩
    refine hmore.wf h (hmore.interned hi le_rfl ?_ ?_ ?_ ?_ ?_
      hi.nodup_constants hi.nodup_registers ?_)
    · rintro i ⟨⟩
    · rintro v ⟨⟩
    · simp [addOperand]
    · simp [addOperand]
    · simp only [List.mem_cons, Prod.mk.injEq]
      tauto
    · exact List.nodup_cons.mpr ⟨not_mem_of_lookup hfind, hi.nodup_undefined⟩

theorem hasOperands_iff {dest : Option OperandId} :
    f.hasOperands dest sources = true ↔ (∀ o ∈ sources, o.index < f.operands.size) ∧
      ∀ d, dest = some d → d.index < f.operands.size := by
  simp [hasOperands, hasOperand, Option.all_eq_true]

/-- An allowed insertion either fails because there are too many sources or inserts. -/
theorem insertion_cases {inst : Instruction} {dest : Option OperandId} {r : OpId × Function}
    (hops : f.hasOperands dest sources = true)
    (hg : ((do checkSources inst sources; return r : Except CompileError _).map (·.2)) = .ok g) :
    sources.length ≤ maxSources ∧ (∀ o ∈ sources, o.index < f.operands.size) ∧
      (∀ d, dest = some d → d.index < f.operands.size) ∧ g = r.2 := by
  obtain ⟨hsources, hdest⟩ := hasOperands_iff.mp hops
  unfold checkSources at hg
  split at hg
  next hlen =>
    cases hg
    exact ⟨hlen, hsources, hdest, rfl⟩
  · cases hg

theorem WellFormed.edit (h : f.WellFormed) {e : Edit} (he : f.allows e = true)
    (hg : f.edit e = .ok g) : g.WellFormed := by
  have hsplit := fun id hlive =>
    List.append_of_mem (h.mem_code_iff.mpr ⟨hlive, Eq.refl (f.operation id).block⟩)
  cases e with
  | createBlock =>
    cases hg
    exact h.addBlock
  | newLocal ty =>
    cases hg
    exact h.newLocal ty
  | constant value ty =>
    cases hg
    exact (h.constant value ty).1
  | register reg ty =>
    cases hg
    exact (h.register reg ty).1
  | undefined ty =>
    cases hg
    exact h.undefinedOperand ty
  | append b inst dest sources =>
    obtain ⟨hb, hops⟩ := Bool.and_eq_true_iff.mp he
    obtain ⟨hlen, hsources, hdest, rfl⟩ := insertion_cases hops hg
    exact (h.inserted_pushBack inst (of_decide_eq_true hb) hlen hsources hdest).wf
  | prepend b inst dest sources =>
    obtain ⟨hb, hops⟩ := Bool.and_eq_true_iff.mp he
    obtain ⟨hlen, hsources, hdest, rfl⟩ := insertion_cases hops hg
    exact (h.inserted_pushFront inst (of_decide_eq_true hb) hlen hsources hdest).wf
  | insertBefore anchor inst dest sources =>
    obtain ⟨hlive, hops⟩ := Bool.and_eq_true_iff.mp he
    obtain ⟨before, after, hcode⟩ := hsplit anchor hlive
    obtain ⟨hlen, hsources, hdest, rfl⟩ := insertion_cases hops hg
    exact (h.inserted_pushBefore inst hcode hlen hsources hdest).wf
  | insertAfter anchor inst dest sources =>
    obtain ⟨hlive, hops⟩ := Bool.and_eq_true_iff.mp he
    obtain ⟨before, after, hcode⟩ := hsplit anchor hlive
    obtain ⟨hlen, hsources, hdest, rfl⟩ := insertion_cases hops hg
    exact (h.inserted_pushAfter inst hcode hlen hsources hdest).wf
  | remove id =>
    obtain ⟨before, after, hcode⟩ := hsplit id he
    cases hg
    exact h.remove hcode
  | setSource id index new =>
    simp only [allows, Bool.and_eq_true, decide_eq_true_eq] at he
    obtain ⟨⟨hlive, hindex⟩, hnew⟩ := he
    cases hg
    exact h.setSource (h.mem_code_iff.mpr ⟨hlive, rfl⟩) hindex (of_decide_eq_true hnew)
  | setSources id sources =>
    obtain ⟨hlive, hsources⟩ := Bool.and_eq_true_iff.mp he
    have hsources : ∀ o ∈ sources, o.index < f.operands.size := fun o ho =>
      of_decide_eq_true (List.all_eq_true.mp hsources o ho)
    simp only [Function.edit, setSources] at hg
    split at hg
    · cases hg
      exact h.replaceSources (h.mem_code_iff.mpr ⟨hlive, rfl⟩) hsources
    · cases hg
  | setInstruction id inst =>
    cases hg
    exact h.setInstruction (h.mem_code_iff.mpr ⟨he, rfl⟩) inst
  | setDest id dest =>
    obtain ⟨hlive, hdest⟩ := Bool.and_eq_true_iff.mp he
    cases hg
    refine h.setDest (h.mem_code_iff.mpr ⟨hlive, rfl⟩) fun d hd => ?_
    subst hd
    exact of_decide_eq_true hdest
  | replaceAllUses old new =>
    obtain ⟨-, hnew⟩ := Bool.and_eq_true_iff.mp he
    cases hg
    exact (h.replaceAllUses (of_decide_eq_true hnew)).1

/-- An allowed call keeps a function well-formed, whether it fails or not. -/
theorem WellFormed.after (h : f.WellFormed) {e : Edit} (he : f.allows e = true) :
    (f.after e).WellFormed := by
  unfold Function.after
  split
  next g hg => exact h.edit he hg
  · exact h

theorem WellFormed.afterAll (h : f.WellFormed) {es : List Edit} (hes : f.allowsAll es = true) :
    (f.afterAll es).WellFormed := by
  induction es generalizing f with
  | nil => exact h
  | cons e es ih =>
    obtain ⟨he, hes⟩ := Bool.and_eq_true_iff.mp hes
    exact ih (h.after he) hes

/-! ### What the checks find -/

theorem forM_eq_error {α ε : Type} {l : List α} {check : α → Except ε Unit} {e : ε}
    (h : l.forM check = .error e) : ∃ a ∈ l, check a = .error e := by
  induction l with
  | nil => cases h
  | cons a l ih =>
    rw [List.forM] at h
    cases ha : check a with
    | error e' =>
      rw [ha] at h
      cases h
      exact ⟨a, .head _, ha⟩
    | ok =>
      rw [ha] at h
      obtain ⟨x, hx, hcheck⟩ := ih h
      exact ⟨x, .tail _ hx, hcheck⟩

theorem WellFormed.fault_of_checkOperation (h : f.WellFormed) (hid : id ∈ f.blockOperations b)
    (he : f.checkOperation b id = .error e) : Fault f b e := by
  obtain ⟨hlive, hblock⟩ := h.mem_code_iff.mp hid
  unfold checkOperation at he
  simp only [hlive, hblock, bne_self_eq_false] at he
  by_cases hphi : (f.operation id).inst = .phi ∧
      (f.operation id).sources.length ≠ (f.predecessors b).length
  · simp only [hphi.1, bne_iff_ne.mpr hphi.2] at he
    cases he
    exact .arity hid hphi.1 hphi.2
  · have hfine : ((f.operation id).inst == .phi &&
        (f.operation id).sources.length != (f.predecessors b).length) = false := by
      simpa using hphi
    rw [hfine] at he
    cases he

theorem WellFormed.fault_of_checkBlock (h : f.WellFormed) (he : f.checkBlock b = .error e) :
    Fault f b e := by
  rcases terminated_or_fault f b with hterm | ⟨e', he', hfault⟩
  · rw [checkBlock_eq_forM hterm] at he
    obtain ⟨id, hid, hcheck⟩ := forM_eq_error he
    exact h.fault_of_checkOperation hid hcheck
  · cases he.symm.trans he'
    exact hfault

/-- The checks find fault with blocks only. -/
theorem WellFormed.fault_of_verify (h : f.WellFormed) (he : f.verify = .error e) :
    ∃ b, b.index < f.blocks.size ∧ Fault f b e := by
  unfold verify at he
  cases hblocks : f.blockIds.forM f.checkBlock with
  | error e' =>
    rw [hblocks] at he
    cases he
    obtain ⟨b, hb, hcheck⟩ := forM_eq_error hblocks
    exact ⟨b, mem_blockIds.mp hb, h.fault_of_checkBlock hcheck⟩
  | ok =>
    rw [hblocks] at he
    obtain ⟨i, -, hcheck⟩ := forM_eq_error he
    cases (h.checkUses_eq_ok ⟨i⟩).symm.trans hcheck

/-! ### Every reachable state -/

/-- A constant that is there is found. -/
theorem Interned.constant_eq (h : Interned f) {value : UInt64} {ty : Ty} {o : OperandId}
    (ho : o.index < f.operands.size) (hkind : (f.operand o).kind = .constant (value &&& ty.mask))
    (hty : (f.operand o).ty = ty) : f.constant value ty = (o, f) := by
  have hmem := (h.mem_constants _ _ o).mpr ⟨ho, hkind, hty⟩
  unfold Function.constant
  simp only [lookup_of_mem h.nodup_constants hmem]

/-- A call fails exactly when it gives an operation more sources than fit. -/
theorem edit_eq_error_iff (e : Edit) :
    (∃ err, f.edit e = .error err) ↔ maxSources < e.sourceCount := by
  have hinsert : ∀ (inst : Instruction) (sources : List OperandId) (r : OpId × Function),
      (∃ err, (do checkSources inst sources; return r : Except CompileError _).map (·.2) =
        .error err) ↔ maxSources < sources.length := by
    intro inst sources r
    unfold checkSources
    split
    next hlen => exact ⟨fun ⟨_, h⟩ => (by cases h), fun h => absurd hlen h.not_ge⟩
    next hlen => exact ⟨fun _ => not_le.mp hlen, fun _ => ⟨_, rfl⟩⟩
  cases e with
  | append b inst dest sources => exact hinsert ..
  | prepend b inst dest sources => exact hinsert ..
  | insertBefore anchor inst dest sources => exact hinsert ..
  | insertAfter anchor inst dest sources => exact hinsert ..
  | setSources id sources =>
    simp only [Function.edit, setSources]
    split
    next hlen => exact ⟨fun ⟨_, h⟩ => (by cases h), fun h => absurd hlen h.not_ge⟩
    next hlen => exact ⟨fun _ => not_le.mp hlen, fun _ => ⟨_, rfl⟩⟩
  | _ => exact ⟨fun ⟨_, h⟩ => (by cases h), fun h => absurd h (Nat.not_lt_zero _)⟩

/-- Every list of a function says what its operations and operands say. -/
structure Exact (f : Function) : Prop where
  /-- Use and definition lists are exact, without duplicates. -/
  tracked : Tracked f
  /-- The links of a block lead, in both directions, through its live operations, each once. -/
  layout : Layout f f.blockOperations
  removed : ∀ id, (f.operation id).live = false →
    (∀ o, id ∉ (f.operand o).uses ∧ id ∉ (f.operand o).defs) ∧ ∀ b, id ∉ f.blockOperations b
  /-- A constant fits its type. -/
  masked : ∀ o v, f.hasOperand o = true → (f.operand o).kind = .constant v →
    v &&& (f.operand o).ty.mask = v
  /-- No two operands are the same constant. -/
  distinct : ∀ o p v, f.hasOperand o = true → f.hasOperand p = true →
    (f.operand o).kind = .constant v → (f.operand p).kind = .constant v →
      (f.operand o).ty = (f.operand p).ty → o = p
  /-- Asking for a constant that is there gives its operand and adds nothing. -/
  found : ∀ value ty o, f.hasOperand o = true → (f.operand o).kind = .constant (value &&& ty.mask) →
    (f.operand o).ty = ty → f.constant value ty = (o, f)
  /-- Only too many sources make a call fail. -/
  fails : ∀ e, (∃ err, f.edit e = .error err) ↔ maxSources < e.sourceCount
  unchanged : ∀ e err, f.edit e = .error err → f.after e = f
  fault : ∀ err, f.verify = .error err → ∃ b, f.hasBlock b = true ∧ Fault f b err

theorem WellFormed.exact (h : f.WellFormed) : Exact f where
  tracked := h.tracked
  layout := h.layout
  removed id hdead := by
    refine ⟨fun o => ⟨fun huse => ?_, fun hdef => ?_⟩, fun b hmem => ?_⟩
    · cases hdead.symm.trans ((h.tracked.uses o id).mp huse).1
    · cases hdead.symm.trans ((h.tracked.defs o id).mp hdef).1
    · cases hdead.symm.trans (h.layout.live b id hmem)
  masked o v ho hkind := h.interned.constant_fits o v (of_decide_eq_true ho) hkind
  distinct o p v ho hp hko hkp hty := by
    have hmask := h.interned.constant_fits o v (of_decide_eq_true ho) hko
    have hfirst : f.constant v (f.operand o).ty = (o, f) :=
      h.interned.constant_eq (of_decide_eq_true ho) (hmask.symm ▸ hko) rfl
    have hsecond : f.constant v (f.operand o).ty = (p, f) :=
      h.interned.constant_eq (of_decide_eq_true hp) (hmask.symm ▸ hkp) hty.symm
    exact (Prod.mk.inj (hfirst.symm.trans hsecond)).1
  found value ty o ho hkind hty := h.interned.constant_eq (of_decide_eq_true ho) hkind hty
  fails := edit_eq_error_iff
  unchanged e err herr := by rw [Function.after, herr]
  fault err herr := by
    obtain ⟨b, hb, hfault⟩ := h.fault_of_verify herr
    exact ⟨b, decide_eq_true hb, hfault⟩

/-- Whatever is done to a new function, its lists stay exact. -/
theorem edits_keep_lists_exact (address : UInt64) (es : List Edit)
    (hes : (ofAddress address).allowsAll es = true) : Exact ((ofAddress address).afterAll es) :=
  ((wf_ofAddress address).afterAll hes).exact

/-- Duplicate sources, anchors at both ends, a destination set again, a call that fails, and
removals from the front of a block. -/
def reworked : List Edit :=
  [.newLocal .i64, .constant 0x100000001 .i32, .constant 1 .i32, .undefined .i32,
    .append ⟨0⟩ .add (some ⟨0⟩) [⟨1⟩, ⟨1⟩], .insertBefore ⟨0⟩ .copy (some ⟨0⟩) [⟨2⟩],
    .insertAfter ⟨0⟩ .dispatch none [⟨0⟩], .setDest ⟨0⟩ (some ⟨0⟩), .setSource ⟨0⟩ 1 ⟨0⟩,
    .append ⟨0⟩ .phi none [⟨0⟩, ⟨0⟩, ⟨0⟩, ⟨0⟩, ⟨0⟩], .replaceAllUses ⟨0⟩ ⟨2⟩, .remove ⟨1⟩,
    .createBlock, .prepend ⟨1⟩ .exit none [], .setInstruction ⟨3⟩ .copy, .setSources ⟨3⟩ [⟨2⟩],
    .register (.gpr 3) .i64]

theorem edits_keep_lists_exact_reworked :
    (ofAddress 0).allowsAll reworked = true ∧ Exact ((ofAddress 0).afterAll reworked) :=
  ⟨by decide, edits_keep_lists_exact 0 reworked (by decide)⟩

end Function

end Dynarec.IR
