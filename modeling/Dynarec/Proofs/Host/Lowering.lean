import Dynarec.Host.Codegen

/-!
# What lowering may do

Emission only adds to the code: instructions, labels and their places stay. Lowering adds to the
code, leaves the registers to choose from as they are, and all that it does to the address table is
to make places in it. It passes on the errors of the assembler and of the register file, and rejects
operations that lack an operand or have one of the wrong kind. That a phi has reached it, it says of
phis only.

A step that is only made of others is an abbreviation, which instance search sees through.
-/

set_option synthInstance.maxSize 10000

namespace Dynarec.Host

/-! ### Growth of the code -/

namespace Assembler

def Registered (a : Assembler) : Prop :=
  ∀ block l, a.blockLabels.lookup block = some l → l.index < a.labels.size

structure Within (a b : Assembler) : Prop where
  items : ∀ (i : Nat) item, a.items[i]? = some item → b.items[i]? = some item
  labels : ∀ l i, a.labels.getD l none = some i → b.labels.getD l none = some i
  labels_size : a.labels.size ≤ b.labels.size
  blockLabels : ∀ b' l, a.blockLabels.lookup b' = some l → b.blockLabels.lookup b' = some l
  /-- A label that no instruction has followed stays open until one does. -/
  openLabel : a.openLabel = some a.size → b.size = a.size → b.openLabel = a.openLabel
  registered : a.Registered → b.Registered

namespace Within

variable {a b c : Assembler}

theorem refl (a : Assembler) : a.Within a :=
  ⟨fun _ _ h => h, fun _ _ h => h, Nat.le_refl _, fun _ _ h => h, fun _ _ => rfl, fun h => h⟩

theorem size_le (h : a.Within b) : a.size ≤ b.size := by
  refine Nat.le_of_not_lt fun hlt => ?_
  have hitem := h.items b.items.size _ (Array.getElem?_eq_getElem hlt)
  simp at hitem

theorem trans (h : a.Within b) (h' : b.Within c) : a.Within c where
  items i item hi := h'.items i item (h.items i item hi)
  labels l i hi := h'.labels l i (h.labels l i hi)
  labels_size := Nat.le_trans h.labels_size h'.labels_size
  blockLabels x l hl := h'.blockLabels x l (h.blockLabels x l hl)
  openLabel hopen hsize := by
    have hb : b.size = a.size := Nat.le_antisymm (hsize ▸ h'.size_le) h.size_le
    have hlabel := h.openLabel hopen hb
    rw [h'.openLabel (by rw [hlabel, hopen, hb]) (hsize.trans hb.symm), hlabel]
  registered hreg := h'.registered (h.registered hreg)

/-- More instructions, or other flags. -/
theorem of_items (hitems : ∀ (i : Nat) item, a.items[i]? = some item → b.items[i]? = some item)
    (hlabels : b.labels = a.labels) (hblocks : b.blockLabels = a.blockLabels)
    (hopen : a.openLabel = some a.size → b.size = a.size → b.openLabel = a.openLabel) :
    a.Within b where
  items := hitems
  labels _ _ hi := hlabels ▸ hi
  labels_size := Nat.le_of_eq (congrArg Array.size hlabels.symm)
  blockLabels _ _ hl := hblocks ▸ hl
  openLabel := hopen
  registered hreg block l hl := by
    rw [hlabels]
    exact hreg block l (hblocks ▸ hl)

end Within

section

variable (a : Assembler)

@[simp] theorem size_push (instr : Instr) : (a.push instr).size = a.size + 1 := by
  simp [push, size]

theorem within_push (instr : Instr) : a.Within (a.push instr) := by
  refine .of_items (fun i item hi => ?_) rfl rfl fun _ _ => rfl
  obtain ⟨hlt, rfl⟩ := Array.getElem?_eq_some_iff.mp hi
  simp [push, Array.getElem?_push_lt hlt]

theorem within_newLabel : a.Within a.newLabel.2 where
  items _ _ hi := hi
  labels l i hi := by
    have hlt : l < a.labels.size := by
      refine Nat.lt_of_not_le fun hge => ?_
      simp [Array.getElem?_eq_none hge] at hi
    simpa [newLabel, Array.getElem?_push_lt hlt, hlt] using hi
  labels_size := by simp [newLabel]
  blockLabels _ _ hl := hl
  openLabel _ _ := rfl
  registered hreg block l hl := by
    rw [newLabel, Array.size_push]
    exact Nat.lt_succ_of_lt (hreg block l hl)

theorem within_blockLabel (block : Nat) : a.Within (a.blockLabel block).2 := by
  unfold blockLabel
  split
  · exact .refl a
  next hnone =>
    have hnew := a.within_newLabel
    refine ⟨hnew.items, hnew.labels, hnew.labels_size, fun x l hl => ?_, fun _ _ => rfl,
      fun hreg x l hl => ?_⟩
    · have hne : x ≠ block := by
        rintro rfl
        rw [hnone] at hl
        cases hl
      have hbeq : (x == block) = false := by simpa using hne
      simpa [newLabel, List.lookup_cons, hbeq] using hl
    · simp only [newLabel, List.lookup_cons, Array.size_push] at hl ⊢
      split at hl
      · cases hl
        exact Nat.lt_succ_self _
      · exact Nat.lt_succ_of_lt (hreg x l hl)

theorem lookup_blockLabel (block : Nat) :
    (a.blockLabel block).2.blockLabels.lookup block = some (a.blockLabel block).1 := by
  unfold blockLabel
  split
  next h => exact h
  · simp

theorem size_blockLabel (block : Nat) : (a.blockLabel block).2.size = a.size := by
  unfold blockLabel
  split <;> rfl

theorem openLabel_blockLabel (block : Nat) : (a.blockLabel block).2.openLabel = a.openLabel := by
  unfold blockLabel
  split <;> rfl

theorem within_closeLabel : a.Within a.closeLabel := by
  unfold closeLabel
  split
  next =>
    have hpush := a.within_push .nop
    refine .of_items hpush.items rfl rfl fun _ hsize => ?_
    have hlt : (a.push .nop).size = a.size + 1 := a.size_push .nop
    exact absurd (hlt.symm.trans hsize) (Nat.succ_ne_self _)
  next hne => exact .of_items (fun _ _ h => h) rfl rfl fun h => absurd h hne

theorem size_closeLabel :
    a.closeLabel.size = if a.openLabel = some a.size then a.size + 1 else a.size := by
  unfold closeLabel
  split
  · exact a.size_push .nop
  · rfl

end

/-- Two labels that are placed one after the other have an instruction between them. -/
theorem Within.size_lt_closeLabel {a b : Assembler} (h : a.Within b)
    (hopen : a.openLabel = some a.size) : a.size < b.closeLabel.size := by
  rw [size_closeLabel]
  rcases Nat.lt_or_eq_of_le h.size_le with hlt | heq
  · split
    · exact Nat.lt_succ_of_lt hlt
    · exact hlt
  · rw [h.openLabel hopen heq.symm, hopen, heq, if_pos rfl]
    exact Nat.lt_succ_self _

end Assembler

/-- An emission step that only adds to the code, also when it fails. -/
class Asm.Growing {α : Type} (e : Asm α) : Prop where
  within : ∀ a : Assembler, a.Within (e.run a : Except EncodingError α × Assembler).2

namespace Asm

open Assembler (Within)

variable {α β : Type}

theorem run_bind (x : Asm α) (f : α → Asm β) (a : Assembler) :
    (x >>= f).run a =
      match x.run a with
      | (.ok v, b) => (f v).run b
      | (.error e, b) => (.error e, b) := by
  change ExceptT.bindCont f (x.run a).1 (x.run a).2 = _
  rcases x.run a with ⟨_ | _, b⟩ <;> rfl

instance growing_pure (v : α) : Growing (pure v) := ⟨fun a => .refl a⟩

instance growing_throw (e : EncodingError) : Growing (throw e : Asm α) := ⟨fun a => .refl a⟩

instance growing_bind (x : Asm α) (f : α → Asm β) [hx : Growing x] [hf : ∀ v, Growing (f v)] :
    Growing (x >>= f) where
  within a := by
    have hstep := hx.within a
    rw [run_bind]
    split
    next v b heq =>
      rw [heq] at hstep
      exact hstep.trans ((hf v).within b)
    next e b heq =>
      rw [heq] at hstep
      exact hstep

instance growing_ite (c : Prop) [Decidable c] (x y : Asm α) [hx : Growing x] [hy : Growing y] :
    Growing (if c then x else y) := by
  split
  · exact hx
  · exact hy

instance growing_emit (instr : Instr) : Growing (emit instr) := ⟨fun a => a.within_push instr⟩

instance growing_gp (r : Reg) : Growing (gp r) := by
  unfold gp
  split <;> infer_instance

instance growing_newLabel : Growing newLabel := ⟨fun a => a.within_newLabel⟩

instance growing_blockLabel (block : Nat) : Growing (blockLabel block) :=
  ⟨fun a => a.within_blockLabel block⟩

instance growing_wordType (width : Width) : Growing (wordType width) := by
  unfold wordType
  split <;> infer_instance

theorem run_place (l : Label) (a : Assembler) :
    (place l).run a =
      if (a.closeLabel.labels.getD l.index none).isSome then (.error .assembly, a.closeLabel)
      else (.ok (), { a.closeLabel with
        labels := a.closeLabel.labels.setIfInBounds l.index (some a.closeLabel.size)
        openLabel := some a.closeLabel.size }) := by
  let rest : Asm Unit := set { a.closeLabel with
    labels := a.closeLabel.labels.setIfInBounds l.index (some a.closeLabel.size)
    openLabel := some a.closeLabel.size }
  have hrun : (place l).run a =
      (if (a.closeLabel.labels.getD l.index none).isSome
        then (do throw .assembly; rest) else rest).run a.closeLabel := rfl
  rw [hrun]
  split <;> rfl

instance growing_place (l : Label) : Growing (place l) where
  within a := by
    rw [run_place]
    refine a.within_closeLabel.trans ?_
    split
    · exact .refl _
    next hnone =>
      refine ⟨fun _ _ hi => hi, fun k i hi => ?_, by simp, fun _ _ hl => hl, (fun h => by cases h),
        fun hreg block l' hl => by simpa using hreg block l' hl⟩
      have hne : l.index ≠ k := by
        rintro rfl
        rw [hi] at hnone
        exact hnone rfl
      simpa [Array.getD_eq_getD_getElem?, Array.getElem?_setIfInBounds_ne hne] using hi

instance growing_finish : Growing finish where
  within a := by
    refine a.within_closeLabel.trans ?_
    have hrun : finish.run a = ((match a.closeLabel.assemble with
      | .ok bytes => pure bytes
      | .error e => throw e : Asm (List UInt8)).run a.closeLabel) := rfl
    rw [hrun]
    split <;> exact .refl _

instance growing_lockNext : Growing (modify ({ · with lockNext := true }) : Asm PUnit) where
  within _ := .of_items (fun _ _ h => h) rfl rfl fun _ _ => rfl

end Asm

namespace Codegen

open IR (BlockId Function Instruction OperandId Operation Ty)

variable {α β : Type}

theorem run_bind (x : Gen α) (f : α → Gen β) (env : Env) (s : State) :
    (x >>= f) env s =
      match x env s with
      | (.ok a, t) => f a env t
      | (.error e, t) => (.error e, t) := by
  change ExceptT.bindCont (fun a => f a env) (x env s).1 (x env s).2 = _
  rcases x env s with ⟨_ | _, t⟩ <;> rfl

theorem ok_of_bind {x : Gen α} {f : α → Gen β} {env : Env} {s u : State} {r : β}
    (h : (x >>= f) env s = (.ok r, u)) : ∃ a t, x env s = (.ok a, t) ∧ f a env t = (.ok r, u) := by
  rw [run_bind] at h
  split at h
  next a t heq => exact ⟨a, t, heq, h⟩
  · cases h

theorem run_asm (e : Asm α) (env : Env) (s : State) :
    asm e env s =
      ((e.run s.asm).1.mapError .encoding, { s with asm := (e.run s.asm).2 }) := by
  have hget : (get : Gen State) env s = (.ok s, s) := rfl
  simp only [asm, run_bind, hget]
  rcases (e.run s.asm) with ⟨_ | _, code⟩ <;> rfl

/-- An error that is not about a phi: the message about phis has no letter s. -/
def Ordinary (e : CompileError) : Prop := ∀ text, e = .invalidIR text → 's' ∈ text.toList

/-- What lowering does to the state: it adds to the code, leaves the set of registers to choose from
as it is and makes places in the table. -/
structure Step (s t : State) : Prop where
  within : s.asm.Within t.asm
  allocatable : t.regs.allocatable = s.regs.allocatable
  table : ∃ pcs : List UInt64, t.table = pcs.foldl (fun table pc => (table.ensure pc).2) s.table

namespace Step

variable {s t u : State}

theorem refl (s : State) : Step s s := ⟨.refl s.asm, rfl, [], rfl⟩

theorem trans (h : Step s t) (h' : Step t u) : Step s u := by
  obtain ⟨pcs, ht⟩ := h.table
  obtain ⟨pcs', hu⟩ := h'.table
  exact ⟨h.within.trans h'.within, h'.allocatable.trans h.allocatable, pcs ++ pcs', by
    rw [List.foldl_append, ← ht, hu]⟩

theorem of_regs (hregs : t.regs.allocatable = s.regs.allocatable) (hasm : t.asm = s.asm)
    (htable : t.table = s.table) : Step s t := ⟨hasm ▸ .refl s.asm, hregs, [], htable⟩

end Step

/-- A computation that steps as lowering does. Its errors are ordinary, unless there may be phis. -/
class Lowers (phis : Prop) (env : Env) (x : Gen α) : Prop where
  error : ∀ s e t, (x env s : Except CompileError α × State) = (.error e, t) → Ordinary e ∨ phis
  step : ∀ s, Step s (x env s : Except CompileError α × State).2

/-- A computation that steps as lowering does, whatever its errors are. -/
abbrev Grows (env : Env) (x : Gen α) : Prop := Lowers True env x

theorem Grows.step (env : Env) (x : Gen α) [Grows env x] (s : State) :
    Step s (x env s : Except CompileError α × State).2 := Lowers.step True s

theorem Grows.within (env : Env) (x : Gen α) [Grows env x] (s : State) :
    s.asm.Within (x env s : Except CompileError α × State).2.asm := (Grows.step env x s).within

section

variable {phis : Prop} {env : Env} {x : Gen α} {f : State → State} {b : BlockId}

/-- A computation that does not fail. -/
theorem lowers_of_ok {g : State → α}
    (hrun : ∀ s, x env s = (.ok (g s), f s))
    (hf : ∀ s, Step s (f s)) : Lowers phis env x := by
  refine ⟨fun s e t h => ?_, fun s => ?_⟩
  · rw [hrun] at h
    cases h
  · rw [hrun]
    exact hf s

instance lowers_pure (a : α) : Lowers phis env (pure a) := lowers_of_ok (fun _ => rfl) Step.refl

instance lowers_get : Lowers phis env get := lowers_of_ok (fun _ => rfl) Step.refl

instance lowers_read : Lowers phis env read := lowers_of_ok (fun _ => rfl) Step.refl

theorem lowers_modify (h : ∀ s, Step s (f s)) : Lowers phis env (modify f) :=
  lowers_of_ok (fun _ => rfl) h

/-- Any change of the state but to the code, the registers and the table. -/
instance lowers_modify_tracking (dirty : State → IR.LocalSet) (block : State → BlockId)
    (stale : State → Option Reg) (session : State → Session) : Lowers phis env
      (modify fun s => ⟨s.asm, s.regs, dirty s, block s, stale s, s.table, session s⟩) :=
  lowers_modify fun _ => .of_regs rfl rfl rfl

instance lowers_unlockAll :
    Lowers phis env (modify fun s : State => { s with regs := s.regs.unlockAll }) :=
  lowers_modify fun _ => .of_regs rfl rfl rfl

instance lowers_reset (dirty : State → IR.LocalSet) (block : State → BlockId)
    (stale : State → Option Reg) : Lowers phis env (modify fun s : State => { s with
      regs := s.regs.reset, dirty := dirty s, block := block s, stale := stale s }) :=
  lowers_modify fun _ => .of_regs rfl rfl rfl

theorem lowers_throw {e : CompileError} (h : Ordinary e ∨ phis) :
    Lowers phis env (throw e : Gen α) := by
  refine ⟨?_, Step.refl⟩
  rintro s _ t ⟨⟩
  exact h

theorem lowers_invalidIR {first last : String} (h : 's' ∈ first.toList ∨ 's' ∈ last.toList) :
    Lowers phis env (throw (.invalidIR (first ++ last)) : Gen α) := by
  refine lowers_throw (.inl ?_)
  rintro _ ⟨⟩
  rw [String.toList_append]
  exact List.mem_append.mpr h

instance lowers_throw_encoding (e) : Lowers phis env (throw (.encoding e) : Gen α) :=
  lowers_throw (.inl nofun)
instance lowers_throw_codegen (e) : Lowers phis env (throw (.codegen e) : Gen α) :=
  lowers_throw (.inl nofun)
instance lowers_throw_blockLayout (e) : Lowers phis env (throw (.blockLayout e) : Gen α) :=
  lowers_throw (.inl nofun)

instance lowers_seq (x : Gen α) (f : α → Gen β) [hx : Lowers phis env x]
    [hf : ∀ a, Lowers phis env (f a)] : Lowers phis env (x >>= f) where
  error s e t h := by
    rw [run_bind] at h
    split at h
    next a r _ => exact (hf a).error r e t h
    next e' r heq =>
      cases h
      exact hx.error s e t heq
  step s := by
    rw [run_bind]
    have hstep := hx.step s
    split
    next a r heq =>
      rw [heq] at hstep
      exact hstep.trans ((hf a).step r)
    next e' r heq =>
      rw [heq] at hstep
      exact hstep

theorem lowers_bind {f : α → Gen β} [Lowers phis env x] (hf : ∀ a, Lowers phis env (f a)) :
    Lowers phis env (x >>= f) := inferInstance

theorem lowers_read_bind {f : Env → Gen α} (h : Lowers phis env (f env)) :
    Lowers phis env (read >>= f) := ⟨h.error, h.step⟩

/-- What follows may depend on the state that was read. -/
theorem lowers_get_bind {f : State → Gen α} (h : ∀ s, (∀ e t, f s env s = (.error e, t) →
    Ordinary e ∨ phis) ∧ Step s (f s env s).2) : Lowers phis env (get >>= f) :=
  ⟨fun s => (h s).1, fun s => (h s).2⟩

instance lowers_ite (c : Prop) [Decidable c] (x y : Gen α) [hx : Lowers phis env x]
    [hy : Lowers phis env y] : Lowers phis env (if c then x else y) := by
  split
  · exact hx
  · exact hy

theorem lowers_forM {l : List α} {f : α → Gen PUnit} (hf : ∀ a ∈ l, Lowers phis env (f a)) :
    Lowers phis env (l.forM f) := by
  induction l with
  | nil => exact inferInstanceAs (Lowers phis env (pure _))
  | cons a l ih =>
    have ha := hf a (.head _)
    have hl := ih fun b hb => hf b (.tail _ hb)
    exact inferInstanceAs (Lowers phis env (f a >>= fun _ => l.forM f))

instance lowers_forM_all (l : List α) (f : α → Gen PUnit) [hf : ∀ a, Lowers phis env (f a)] :
    Lowers phis env (l.forM f) := lowers_forM fun a _ => hf a

instance lowers_asm (e : Asm α) [he : e.Growing] : Lowers phis env (asm e) where
  error s err t h := by
    rw [run_asm] at h
    generalize (e.run s.asm : Except EncodingError α × Assembler) = r at h
    rcases r with ⟨_ | _, code⟩ <;> cases h
    exact .inl nofun
  step s := by
    rw [run_asm]
    exact ⟨he.within s.asm, rfl, [], rfl⟩

/-! ### Registers -/

/-- A step of the register file that keeps the set of registers, and what follows it. -/
theorem lowers_regs (g : RegisterFile → Except RegisterError α) (regs : α → RegisterFile)
    (f : α → Gen β) (hf : ∀ a, Lowers phis env (f a))
    (hg : ∀ file a, g file = .ok a → (regs a).allocatable = file.allocatable) :
    Lowers phis env (do
      let a ← liftRegs (g (← get).regs)
      setRegs (regs a)
      f a) := by
  refine lowers_get_bind fun s => ?_
  cases h : g s.regs with
  | error e => exact ⟨fun _ _ herror => by cases herror; exact .inl nofun, .refl s⟩
  | ok a =>
    have hset : Step s { s with regs := regs a } := .of_regs (hg _ a h) rfl rfl
    exact ⟨(hf a).error _, hset.trans ((hf a).step _)⟩

instance lowers_allocate (i) : Lowers phis env (allocate i) := by
  let rest : (Reg × Option Nat) × RegisterFile → Gen Reg := fun found => do
    match found.1.2 with
    | some victim => spill victim found.1.1
    | none => pure ()
    return found.1.1
  refine lowers_regs (·.allocate i) Prod.snd rest (fun found => ?_) fun file a ha => ?_
  · obtain ⟨⟨r, _ | victim⟩, regs⟩ := found <;> (dsimp only [rest]; infer_instance)
  · unfold RegisterFile.allocate at ha
    split at ha
    · cases ha
      rfl
    · split at ha <;> cases ha
      rfl

instance lowers_lock (r) : Lowers phis env (lock r) := by
  refine lowers_regs (·.lock r) id (fun _ => pure ()) inferInstance fun file a ha => ?_
  unfold RegisterFile.lock at ha
  split at ha <;> cases ha
  rfl

instance lowers_release (r) : Lowers phis env (release r) := by
  refine lowers_regs (·.release r) id (fun _ => pure ()) inferInstance fun file a ha => ?_
  unfold RegisterFile.release at ha
  split at ha
  · cases ha
  · split at ha <;> cases ha
    rfl

instance lowers_useLocal (i) : Lowers phis env (useLocal i) := by
  refine lowers_bind fun s => ?_
  split <;> infer_instance

instance lowers_operandValue (id) : Lowers phis env (operandValue id) := by
  refine lowers_bind fun env => ?_
  split
  · infer_instance
  · infer_instance
  · infer_instance
  · exact lowers_invalidIR (.inr (by decide))

instance lowers_sourceId (op i) : Lowers phis env (sourceId op i) := by
  unfold sourceId
  split
  · infer_instance
  · refine lowers_invalidIR (.inl ?_)
    rw [String.toList_append]
    exact List.mem_append_right _ (by decide)

instance lowers_constantSource (op i) : Lowers phis env (constantSource op i) := by
  refine lowers_bind fun env => lowers_bind fun id => ?_
  split
  · infer_instance
  · refine lowers_invalidIR (.inl ?_)
    rw [String.toList_append]
    exact List.mem_append_right _ (by decide)

instance lowers_destOf (op) : Lowers phis env (destOf op) := by
  unfold destOf
  split
  · infer_instance
  · exact lowers_invalidIR (.inr (by decide))

instance lowers_localOf (dest) : Lowers phis env (localOf dest) := by
  refine lowers_bind fun env => ?_
  split
  · infer_instance
  · exact lowers_invalidIR (.inr (by decide))

instance lowers_define (dest) : Lowers phis env (define dest) := by
  refine lowers_bind fun i => lowers_bind fun s => ?_
  split
  · refine lowers_bind fun s => ?_
    split <;> infer_instance
  · infer_instance

instance lowers_finishDef (dest r) : Lowers phis env (finishDef dest r) := by
  refine lowers_bind fun i => lowers_bind fun s => ?_
  split <;> infer_instance

/-! ### Operations -/

instance lowers_movValue (dst value) : Lowers phis env (movValue dst value) := by
  unfold movValue
  split <;> infer_instance

instance lowers_materialize (value scratch) : Lowers phis env (materialize value scratch) := by
  unfold materialize
  split <;> infer_instance

instance lowers_call (target args) : Lowers phis env (call target args) := by
  refine lowers_bind fun _ => ?_
  split <;> infer_instance

instance lowers_unary (op) (body : Ty → Reg → Value → Gen Unit)
    [∀ ty rd a, Lowers phis env (body ty rd a)] :
    Lowers phis env (unary op body) := by unfold unary; infer_instance

instance lowers_binary (op) (body : Ty → Reg → Value → Value → Gen Unit)
    [∀ ty rd a b, Lowers phis env (body ty rd a b)] : Lowers phis env (binary op body) := by
  unfold binary; infer_instance

instance lowers_alu (op ty rd a b) : Lowers phis env (alu op ty rd a b) := by
  refine lowers_bind fun _ => ?_
  split <;> infer_instance

instance lowers_shift (op ty rd a b) : Lowers phis env (shift op ty rd a b) := by
  refine lowers_bind fun _ => ?_
  split <;> infer_instance

instance lowers_divide (signed ty rd a b) : Lowers phis env (divide signed ty rd a b) := by
  refine lowers_bind fun _ => lowers_bind fun _ => lowers_bind fun _ => lowers_bind fun _ => ?_
  refine lowers_bind fun _ => lowers_bind fun _ => ?_
  split <;> infer_instance

instance lowers_setIf (cmp ty rd a b) : Lowers phis env (setIf cmp ty rd a b) := by
  refine lowers_bind fun _ => lowers_bind fun ra => ?_
  split <;> infer_instance

instance lowers_resize (inst ty rd a) : Lowers phis env (resize inst ty rd a) := by
  refine lowers_bind fun ra => ?_
  split <;> infer_instance

instance lowers_widthOf (bytes) : Lowers phis env (widthOf bytes) := by
  unfold widthOf
  split <;> infer_instance

instance lowers_storeField (field width value) :
    Lowers phis env (storeField field width value) := by
  unfold storeField
  split <;> infer_instance

/-! ### Terminators -/

instance lowers_branchOn (ty t e next v) : Lowers phis env (branchOn ty t e next v) := by
  unfold branchOn
  split <;> infer_instance

instance lowers_tableWalk : Lowers phis env tableWalk := by
  refine lowers_bind fun s => ?_
  dsimp only
  infer_instance

instance lowers_tableJump (pc) : Lowers phis env (tableJump pc) := by
  have hjump : Lowers phis env (do
      asm (Asm.movImm .rax (slotAddress pc))
      leaveFrame
      asm (Asm.jmpMem .rax)) := inferInstance
  have hreturn : Lowers phis env (do
      leaveFrame
      asm Asm.ret) := inferInstance
  refine lowers_get_bind fun s => ?_
  have hensure : Step s { s with table := (s.table.ensure pc).2 } := ⟨.refl s.asm, rfl, [pc], rfl⟩
  generalize s.table.ensure pc = found at hensure ⊢
  obtain ⟨_ | slot, table⟩ := found
  · exact ⟨hreturn.error _, hensure.trans (hreturn.step _)⟩
  · exact ⟨hjump.error _, hensure.trans (hjump.step _)⟩

instance lowers_lookUp (target) : Lowers phis env (lookUp target) := by
  unfold lookUp
  split <;> infer_instance

theorem lowers_operation {op : Operation} (h : op.inst = .phi → phis) (next : Option BlockId) :
    Lowers phis env (operation op next) := by
  unfold operation
  cases hinst : op.inst with
  | phi => exact lowers_throw (.inr (h hinst))
  | _ => infer_instance

instance grows_operation (op next) : Grows env (operation op next) :=
  lowers_operation (fun _ => trivial) next

/-! ### Functions -/

section

variable (next : Option BlockId)
  (h : ∀ id ∈ env.func.blockOperations b, (env.func.operation id).inst = .phi → phis)

include h

theorem lowers_lowerOperations : Lowers phis env (lowerOperations b next) := by
  have hops : Lowers phis env ((env.func.blockOperations b).forM fun id => do
      operation (env.func.operation id) next
      modify fun s => { s with regs := s.regs.unlockAll }) := by
    refine lowers_forM fun id hid => ?_
    have hop : Lowers phis env (operation (env.func.operation id) next) :=
      lowers_operation (h id hid) next
    infer_instance
  refine lowers_read_bind ?_
  infer_instance

theorem lowers_lowerBlock : Lowers phis env (lowerBlock b next) := by
  have hops := lowers_lowerOperations next h
  unfold lowerBlock
  infer_instance

end

theorem lowers_lowerBlocks {blocks : List BlockId} (h : ∀ b ∈ blocks,
    ∀ id ∈ env.func.blockOperations b, (env.func.operation id).inst = .phi → phis) :
    Lowers phis env (lowerBlocks blocks) := by
  induction blocks with
  | nil => exact inferInstanceAs (Lowers phis env (pure _))
  | cons b rest ih =>
    have hblock := lowers_lowerBlock rest.head? (h b (.head _))
    have hrest := ih fun c hc => h c (.tail _ hc)
    exact inferInstanceAs (Lowers phis env (lowerBlock b rest.head? >>= fun _ => lowerBlocks rest))

theorem lowers_lower
    (h : ∀ b, ∀ id ∈ env.func.blockOperations b, (env.func.operation id).inst = .phi → phis) :
    Lowers phis env lower := by
  have hblocks := lowers_lowerBlocks fun b (_ : b ∈ env.func.blockIds) => h b
  refine lowers_read_bind ?_
  infer_instance

instance grows_lowerOperations (b next) : Grows env (lowerOperations b next) :=
  lowers_lowerOperations next fun _ _ _ => trivial
instance grows_lowerBlock (b next) : Grows env (lowerBlock b next) :=
  lowers_lowerBlock next fun _ _ _ => trivial
instance grows_lowerBlocks (blocks) : Grows env (lowerBlocks blocks) :=
  lowers_lowerBlocks fun _ _ _ _ _ => trivial

end

end Codegen

variable {f : IR.Function} (table : Code.AddressTable) (session : Session)

/-- A function without phis is not rejected for a phi. -/
theorem generate_ne_phi (h : ∀ b, ∀ id ∈ f.blockOperations b, (f.operation id).inst ≠ .phi) :
    (generate f table session).code ≠ .error (.invalidIR "phi reached code generation") := by
  intro hcode
  have hlowers : Codegen.Lowers False ⟨f, ⟨f.localCount⟩, .compute f⟩ Codegen.lower :=
    Codegen.lowers_lower h
  exact (hlowers.error _ _ _ (Prod.ext hcode rfl)).elim (fun h => absurd (h _ rfl) (by decide))
    id

/-- Whether it succeeds or not, code generation makes places in the table and nothing else. -/
theorem exists_table_generate : ∃ pcs : List UInt64, (generate f table session).table =
    pcs.foldl (fun table pc => (table.ensure pc).2) table := by
  have hlowers : Codegen.Lowers True ⟨f, ⟨f.localCount⟩, .compute f⟩ Codegen.lower :=
    Codegen.lowers_lower fun _ _ _ _ => trivial
  exact (hlowers.step _).table

end Dynarec.Host
