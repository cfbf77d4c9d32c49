import Dynarec.Proofs.IR.ConstructedForm

/-!
# Functions under construction

A draft is a function some of whose blocks have no terminator yet. Operations are added at the ends
of these blocks only, and a terminator leads only to blocks that are still empty. So the definitions
that come before a use stay the same, and when no block is left unfinished the function can be put
into static single assignment form.
-/

namespace Dynarec.IR

open List Program

namespace Program

def append (p : Program) (b : BlockId) (id : OpId) (s : Stmt) : Program :=
  (p.withStmt id s).withCode b (p.code b ++ [id])

section Append

variable {p : Program} {b c : BlockId} {id x : OpId} {s : Stmt} {done : List OpId} {v : OperandId}

theorem code_append_self : (p.append b id s).code b = p.code b ++ [id] :=
  (code_withCode _ _ _ _).trans (if_pos rfl)

theorem code_append_of_ne (h : c ≠ b) : (p.append b id s).code c = p.code c :=
  (code_withCode _ _ _ _).trans (if_neg h)

theorem mem_code_append : x ∈ (p.append b id s).code c ↔ x ∈ p.code c ∨ (c = b ∧ x = id) := by
  by_cases hc : c = b
  · subst hc
    simp [code_append_self]
  · simp [code_append_of_ne hc, hc]

theorem stmt_append_self : (p.append b id s).stmt id = s := by
  simp [append, stmt_withStmt]

theorem stmt_append_of_ne (h : x ≠ id) : (p.append b id s).stmt x = p.stmt x := by
  simp [append, stmt_withStmt, h]

theorem Admissible.append {t : Stmt} (h : p.Admissible t) : (p.append b id s).Admissible t :=
  ⟨h.not_phi, h.not_load, h.not_store, h.dest, h.copy⟩

/-- A split of the code at an old operation, or at the new one. -/
theorem append_split {rest : List OpId} (h : (p.append b id s).code c = done ++ x :: rest) :
    (∃ rest', p.code c = done ++ x :: rest') ∨ (c = b ∧ x = id ∧ done = p.code b) := by
  by_cases hc : c = b
  · subst hc
    rw [code_append_self] at h
    rcases eq_nil_or_concat rest with rfl | ⟨init, last, rfl⟩
    · obtain ⟨hdone, hx⟩ := append_inj' h rfl
      exact .inr ⟨rfl, (cons.inj hx).1.symm, hdone.symm⟩
    · have hassoc : done ++ x :: (init ++ [last]) = (done ++ x :: init) ++ [last] := by simp
      rw [concat_eq_append, hassoc] at h
      exact .inl ⟨init, (append_inj' h rfl).1⟩
  · rw [code_append_of_ne hc] at h
    exact .inl ⟨rest, h⟩

variable (hnew : ∀ c, id ∉ p.code c)

include hnew

theorem stmt_append_of_mem (h : x ∈ p.code c) : (p.append b id s).stmt x = p.stmt x :=
  stmt_append_of_ne fun heq => hnew c (heq ▸ h)

theorem successors_append_of_ne (h : c ≠ b) : (p.append b id s).successors c = p.successors c :=
  successors_congr (code_append_of_ne h) fun _ => stmt_append_of_mem hnew

omit hnew in
theorem successors_append_self : (p.append b id s).successors b = s.inst.targets := by
  simp [successors, code_append_self, stmt_append_self]

theorem Defines.append (h : p.Defines c v) : (p.append b id s).Defines c v := by
  obtain ⟨e, he, hdest⟩ := h
  refine ⟨e, mem_code_append.mpr (.inl he), ?_⟩
  rw [stmt_append_of_mem hnew he]
  exact hdest

/-! ### Paths -/

variable (htargets : ∀ t ∈ s.inst.targets, p.successors t = [])

include htargets

/-- New edges lead to blocks from which nothing leads on. -/
theorem Path.of_append {visited : List BlockId} (h : (p.append b id s).Path visited c)
    (hc : c ∉ s.inst.targets) : p.Path visited c := by
  induction h with
  | entry => exact .entry
  | @step visited d c hd hedge ih =>
    by_cases hdb : d = b
    · rw [hdb, successors_append_self] at hedge
      exact absurd hedge hc
    · rw [successors_append_of_ne hnew hdb] at hedge
      refine .step (ih fun hmem => ?_) hedge
      rw [htargets d hmem] at hedge
      cases hedge

theorem DefinedBefore.append (h : p.DefinedBefore c v) (hc : c ∉ s.inst.targets) :
    (p.append b id s).DefinedBefore c v := by
  intro visited hpath
  obtain ⟨d, hd, hdef⟩ := h visited (hpath.of_append hnew htargets hc)
  exact ⟨d, hd, hdef.append hnew⟩

theorem DefinedAt.append (h : p.DefinedAt c done v) (hdone : done ⊆ p.code c)
    (hc : c ∉ s.inst.targets) :
    (p.append b id s).DefinedAt c done v := by
  rcases h with ⟨e, he, hdest⟩ | hbefore
  · refine .inl ⟨e, he, ?_⟩
    rw [stmt_append_of_mem hnew (hdone he)]
    exact hdest
  · exact .inr (hbefore.append hnew htargets hc)

/-- What was defined at the end of a block is defined before the blocks that only it leads to. -/
theorem DefinedAt.before_target {t : BlockId} (h : p.DefinedAt b (p.code b) v)
    (hb : b ∉ s.inst.targets) (hentry : t ≠ Function.entry) (honly : ∀ d, t ∉ p.successors d) :
    (p.append b id s).DefinedBefore t v := by
  intro visited hpath
  cases hpath with
  | entry => exact absurd rfl hentry
  | @step visited d _ hd hedge =>
    obtain rfl : d = b := by
      by_contra hne
      rw [successors_append_of_ne hnew hne] at hedge
      exact honly d hedge
    rcases h with ⟨e, he, hdest⟩ | hbefore
    · exact ⟨d, .head _, Defines.append hnew ⟨e, he, hdest⟩⟩
    · obtain ⟨x, hx, hdef⟩ := hbefore visited (hd.of_append hnew htargets hb)
      exact ⟨x, .tail _ hx, hdef.append hnew⟩

/-- Locals stay scoped if the new operation reads what is defined and defines what is new. -/
theorem LocalsScoped.append (h : p.LocalsScoped)
    (hempty : ∀ t ∈ s.inst.targets, p.code t = []) (hb : b ∉ s.inst.targets)
    (hsources : ∀ o ∈ s.sources, ∀ i, p.kind o = .local_ i → p.DefinedAt b (p.code b) o)
    (hdest : ∀ d, s.dest = some d →
      ((∃ i, p.kind d = .local_ i) ∧ ∀ c, ¬p.Defines c d) ∨ ∃ r, p.kind d = .register r)
    (hcompare : ∀ cmp, s.inst = .compare cmp → ∀ o ∈ s.sources, p.ty o = p.sourceTy s) :
    (p.append b id s).LocalsScoped := by
  -- a local that the new operation defines is defined nowhere else
  have hother : ∀ c e v i, e ∈ p.code c → (p.stmt e).dest = some v → s.dest = some v →
      p.kind v ≠ .local_ i := by
    intro c e v i he hd hs hv
    rcases hdest v hs with ⟨-, hnone⟩ | ⟨r, hr⟩
    · exact hnone c ⟨e, he, hd⟩
    · rw [hr] at hv
      cases hv
  refine ⟨?_, fun c done e rest hcode o ho i hi => ?_, fun c e he d hd => ?_,
    fun c e he cmp hcmp o ho => ?_⟩
  · intro c d l r l' r' e e' v i hl hl' hd hd' hv
    rcases append_split hl with ⟨r₁, hl₁⟩ | ⟨rfl, rfl, rfl⟩
    · have he := mem_of_split hl₁
      rw [stmt_append_of_mem hnew he] at hd
      rcases append_split hl' with ⟨r₂, hl₂⟩ | ⟨rfl, rfl, rfl⟩
      · have he' := mem_of_split hl₂
        rw [stmt_append_of_mem hnew he'] at hd'
        exact h.once.place hv hl₁ hl₂ hd hd'
      · rw [stmt_append_self] at hd'
        exact absurd hv (hother c e v i he hd hd')
    · rw [stmt_append_self] at hd
      rcases append_split hl' with ⟨r₂, hl₂⟩ | ⟨rfl, rfl, rfl⟩
      · have he' := mem_of_split hl₂
        rw [stmt_append_of_mem hnew he'] at hd'
        exact absurd hv (hother d e' v i he' hd' hd)
      · exact ⟨rfl, rfl, rfl⟩
  · have hkind : p.kind o = .local_ i := hi
    rcases append_split hcode with ⟨rest', hcode'⟩ | ⟨rfl, rfl, rfl⟩
    · have he := mem_of_split hcode'
      rw [stmt_append_of_mem hnew he] at ho
      have hnot : c ∉ s.inst.targets := by
        intro hmem
        rw [hempty c hmem] at he
        cases he
      refine (h.use c done e rest' hcode' o ho i hkind).append hnew htargets ?_ hnot
      exact hcode' ▸ subset_append_left _ _
    · rw [stmt_append_self] at ho
      exact (hsources o ho i hkind).append hnew htargets (fun _ hx => hx) hb
  · rcases mem_code_append.mp he with he | ⟨rfl, rfl⟩
    · rw [stmt_append_of_mem hnew he] at hd
      exact h.dest c e he d hd
    · rw [stmt_append_self] at hd
      exact (hdest d hd).imp_left And.left
  · rcases mem_code_append.mp he with he | ⟨rfl, rfl⟩
    · rw [stmt_append_of_mem hnew he] at hcmp ho ⊢
      exact h.compare c e he cmp hcmp o ho
    · rw [stmt_append_self] at hcmp ho ⊢
      exact hcompare cmp hcmp o ho

end Append

end Program

/-! ### Growing functions -/

namespace Function

/-- `g` is `f` with more operands, more blocks and more code in its unfinished blocks. -/
structure Grows (f : Function) (unfinished : List BlockId) (g : Function) : Prop
    extends OperandsKept f g where
  blocks : f.blocks.size ≤ g.blocks.size
  stmt : ∀ b, ∀ id ∈ f.program.code b, g.program.stmt id = f.program.stmt id
  code : ∀ b, f.program.code b <+: g.program.code b
  finished : ∀ b, b.index < f.blocks.size → b ∉ unfinished → g.program.code b = f.program.code b

namespace Grows

variable {f g h : Function} {unfinished left : List BlockId}

theorem refl (f : Function) (unfinished : List BlockId) : f.Grows unfinished f :=
  ⟨.refl f, le_rfl, fun _ _ _ => rfl, fun _ => prefix_rfl, fun _ _ _ => rfl⟩

theorem trans (hfg : f.Grows unfinished g) (hgh : g.Grows left h)
    (hleft : ∀ b ∈ left, b.index < f.blocks.size → b ∈ unfinished) : f.Grows unfinished h where
  toOperandsKept := hfg.toOperandsKept.trans hgh.toOperandsKept
  blocks := hfg.blocks.trans hgh.blocks
  stmt b id hid := (hgh.stmt b id ((hfg.code b).subset hid)).trans (hfg.stmt b id hid)
  code b := List.IsPrefix.trans (hfg.code b) (hgh.code b)
  finished b hb hnot := by
    have hnot' : b ∉ left := fun hmem => hnot (hleft b hmem hb)
    rw [hgh.finished b (hb.trans_le hfg.blocks) hnot', hfg.finished b hb hnot]

theorem of_extends (h : f.Extends g) (unfinished : List BlockId) : f.Grows unfinished g where
  toOperandsKept := h.operandsKept
  blocks := (congrArg Array.size h.blocks).symm.le
  stmt _ _ _ := congrFun h.stmt_eq _
  code b := by rw [h.code_eq]
  finished _ _ _ := congrFun h.code_eq _

theorem addBlock (f : Function) (unfinished : List BlockId) : f.Grows unfinished f.addBlock.2 where
  blocks := by
    rw [size_addBlock]
    exact Nat.le_succ _
  operands := le_rfl
  kind _ _ := rfl
  ty _ _ := rfl
  stmt _ _ _ := rfl
  code b := by rw [program_addBlock]
  finished _ _ _ := by rw [program_addBlock]

end Grows

namespace Extends

variable {f g : Function} (h : f.Extends g)

include h

theorem successors_eq : g.program.successors = f.program.successors := by
  funext b
  rw [Program.successors, Program.successors, h.code_eq, h.stmt_eq]

theorem definedBefore {b : BlockId} {v : OperandId} (hv : f.program.DefinedBefore b v) :
    g.program.DefinedBefore b v := by
  refine hv.mono (fun b c _ hc => h.successors_eq ▸ hc) fun c _ hdef => ?_
  rw [Program.Defines, h.code_eq, h.stmt_eq]
  exact hdef

theorem definedAt {b : BlockId} {done : List OpId} {v : OperandId}
    (hv : f.program.DefinedAt b done v) : g.program.DefinedAt b done v := by
  rcases hv with hin | hbefore
  · rw [Program.DefinedAt, h.stmt_eq]
    exact .inl hin
  · exact .inr (h.definedBefore hbefore)

end Extends

/-- Nothing is in the block yet, and at most one block leads to it. -/
structure Fresh (f : Function) (b : BlockId) : Prop where
  lt : b.index < f.blocks.size
  ne_entry : b ≠ entry
  code : f.program.code b = []
  few : ∃ x, ∀ c, b ∈ f.program.successors c → c = x

end Function

/-! ### Drafts -/

/-- A function some of whose blocks are unfinished. Its registers have the types `tys`, and two ways
meet in a block only if it `joins` them. -/
structure Draft (tys : GuestReg → Ty) (joins : Prop) (f : Function) (unfinished : List BlockId) :
    Prop where
  wf : f.WellFormed
  entry : 0 < f.blocks.size
  finished : ∀ b, b.index < f.blocks.size → b ∉ unfinished → f.program.Terminated (f.program.code b)
  exist : ∀ b ∈ unfinished, b.index < f.blocks.size
  plain : ∀ b ∈ unfinished, ∀ id ∈ f.program.code b, (f.program.stmt id).inst.isTerminator = false
  target : ∀ b c, c ∈ f.program.successors b → c ≠ Function.entry ∧ c.index < f.blocks.size
  /-- Two blocks at most lead to a block. -/
  few : ∀ c, ∃ x y, (∀ b, c ∈ f.program.successors b → b = x ∨ b = y) ∧ (joins ∨ x = y)
  admissible : ∀ b, ∀ id ∈ f.program.code b, f.program.Admissible (f.program.stmt id)
  locals : f.program.LocalsScoped
  registers : ∀ e ∈ f.registers, e.1.Valid ∧ f.program.ty e.2 = tys e.1

namespace Draft

variable {tys : GuestReg → Ty} {joins : Prop} {f g : Function} {unfinished : List BlockId}

/-- The order of the unfinished blocks does not matter. -/
theorem perm (h : Draft tys joins f unfinished) {left : List BlockId}
    (hleft : ∀ b, b ∈ left ↔ b ∈ unfinished) : Draft tys joins f left :=
  ⟨h.wf, h.entry, fun b hb hmem => h.finished b hb fun hb' => hmem ((hleft b).mpr hb'),
    fun b hb => h.exist b ((hleft b).mp hb), fun b hb => h.plain b ((hleft b).mp hb), h.target,
    h.few, h.admissible, h.locals, h.registers⟩

theorem ofAddress (address : UInt64) : Draft tys joins (.ofAddress address) [Function.entry] := by
  have hwell := Function.wf_ofAddress address
  have hnot : ∀ b id, id ∉ (Function.ofAddress address).program.code b := by
    intro b id hid
    cases hid
  have hsucc : ∀ b c, c ∉ (Function.ofAddress address).program.successors b := by
    intro b c hc
    cases hc
  refine ⟨hwell, Nat.one_pos, fun b hb hmem => ?_, ?_, fun b _ id hid => absurd hid (hnot b id),
    fun b c hc => absurd hc (hsucc b c),
    fun c => ⟨c, c, fun b hc => absurd hc (hsucc b c), .inr rfl⟩,
    fun b id hid => absurd hid (hnot b id), ?_, fun e he => by cases he⟩
  · obtain ⟨i⟩ := b
    obtain rfl : i = 0 := Nat.lt_one_iff.mp hb
    exact absurd (.head _) hmem
  · rintro b hb
    rw [mem_singleton.mp hb]
    exact Nat.one_pos
  · refine ⟨fun b c l r l' r' id id' v i hl => ?_, fun b done id rest hl => ?_,
      fun b id hid => absurd hid (hnot b id), fun b id hid => absurd hid (hnot b id)⟩
    · exact absurd (mem_of_split hl) (hnot b id)
    · exact absurd (mem_of_split hl) (hnot b id)

section

variable (h : Draft tys joins f unfinished)

include h

/-- New operands that no operation mentions. -/
theorem extend (hg : g.WellFormed) (hext : f.Extends g)
    (hregisters : ∀ e ∈ g.registers, e.1.Valid ∧ g.program.ty e.2 = tys e.1) :
    Draft tys joins g unfinished := by
  have hcode := hext.code_eq
  have hstmt := hext.stmt_eq
  have hsucc := hext.successors_eq
  have hsame : ∀ {b id}, id ∈ f.program.code b → ∀ o,
      o ∈ (f.program.stmt id).sources ∨ (f.program.stmt id).dest = some o →
      g.program.kind o = f.program.kind o ∧ g.program.ty o = f.program.ty o := fun hid o ho =>
    ⟨hext.kind_eq (h.wf.operand_lt hid ho), hext.ty_eq (h.wf.operand_lt hid ho)⟩
  refine ⟨hg, hext.blocks ▸ h.entry, fun b hb hmem => ?_, hext.blocks ▸ h.exist,
    fun b hb id hid => ?_, fun b c hc => ?_, fun c => ?_, fun b id hid => ?_, ?_, hregisters⟩
  · rw [hcode]
    refine (h.finished b (hext.blocks ▸ hb) hmem).congr fun id _ => ?_
    rw [hstmt]
  · rw [hcode] at hid
    rw [hstmt]
    exact h.plain b hb id hid
  · rw [hsucc] at hc
    rw [hext.blocks]
    exact h.target b c hc
  · rw [hsucc]
    exact h.few c
  · rw [hcode] at hid
    rw [hstmt]
    exact (h.admissible b id hid).congr (hsame hid)
  · have hs := h.locals
    refine ⟨fun b c l r l' r' id id' v i hl hl' hd hd' hv => ?_,
      fun b done id rest hl o ho i hi => ?_, fun b id hid d hd => ?_,
      fun b id hid cmp hcmp o ho => ?_⟩
    · rw [hcode] at hl hl'
      rw [hstmt] at hd hd'
      rw [(hsame (mem_of_split hl) v (.inr hd)).1] at hv
      exact hs.once.place hv hl hl' hd hd'
    · rw [hcode] at hl
      rw [hstmt] at ho
      rw [(hsame (mem_of_split hl) o (.inl ho)).1] at hi
      exact hext.definedAt (hs.use b done id rest hl o ho i hi)
    · rw [hcode] at hid
      rw [hstmt] at hd
      rw [(hsame hid d (.inr hd)).1]
      exact hs.dest b id hid d hd
    · rw [hcode] at hid
      rw [hstmt] at hcmp ho ⊢
      have hty := fun o ho => (hsame hid o (.inl ho)).2
      rw [sourceTy_map (map_id' _).symm hty, hty o ho]
      exact hs.compare b id hid cmp hcmp o ho

theorem register_lt {e : GuestReg × OperandId}
    (he : e ∈ f.registers) : e.2.index < f.operands.size :=
  ((h.wf.interned.mem_registers e.1 e.2).mp he).1

/-- New operands other than registers. -/
theorem extend_of_eq (hg : g.WellFormed) (hext : f.Extends g)
    (hregisters : g.registers = f.registers) : Draft tys joins g unfinished := by
  refine h.extend hg hext fun e he => ?_
  rw [hregisters] at he
  rw [hext.ty_eq (h.register_lt he)]
  exact h.registers e he

theorem constant (value : UInt64) (ty : Ty) :
    Draft tys joins (f.constant value ty).2 unfinished := by
  obtain ⟨hwell, hext, hregisters, -⟩ := h.wf.constant value ty
  exact h.extend_of_eq hwell hext hregisters

theorem newLocal (ty : Ty) : Draft tys joins (f.newLocal ty).2 unfinished :=
  h.extend_of_eq (h.wf.newLocal ty) (Function.oneMore_newLocal ty).grows rfl

theorem register {r : GuestReg} (hr : r.Valid) :
    Draft tys joins (f.register r (tys r)).2 unfinished := by
  obtain ⟨hwell, hext, -⟩ := h.wf.register r (tys r)
  refine h.extend hwell hext fun e he => ?_
  by_cases hold : e ∈ f.registers
  · rw [hext.ty_eq (h.register_lt hold)]
    exact h.registers e hold
  · unfold Function.register at he ⊢
    cases hfind : f.registers.lookup r with
    | some id =>
      rw [hfind] at he
      exact absurd he hold
    | none =>
      rw [hfind] at he
      have hmem : e ∈ f.registers ++ [(r, ⟨f.operands.size⟩)] := he
      obtain rfl := mem_singleton.mp ((mem_append.mp hmem).resolve_left hold)
      have hmore : Function.OneMore f (.register r) (tys r)
          { (f.addOperand (.register r) (tys r)).2 with
            registers := f.registers ++ [(r, ⟨f.operands.size⟩)] } := ⟨rfl, rfl, rfl, rfl⟩
      exact ⟨hr, congrArg Operand.ty hmore.operand_new⟩

theorem addBlock : Draft tys joins f.addBlock.2 (⟨f.blocks.size⟩ :: unfinished) := by
  have hprogram := Function.program_addBlock (f := f)
  have hlt : ∀ {n : Nat}, n < f.blocks.size → n < f.addBlock.2.blocks.size := by
    rw [Function.size_addBlock]
    exact Nat.lt_succ_of_lt
  refine ⟨h.wf.addBlock, hlt h.entry, fun b hb hmem => ?_, fun b hb => ?_,
    fun b hb id hid => ?_, fun b c hc => ?_, hprogram.symm ▸ h.few, hprogram.symm ▸ h.admissible,
    hprogram.symm ▸ h.locals, hprogram.symm ▸ h.registers⟩
  · rw [Function.size_addBlock] at hb
    rw [mem_cons, not_or] at hmem
    rw [hprogram]
    refine h.finished b ((Nat.le_of_lt_succ hb).lt_of_ne fun heq => hmem.1 ?_) hmem.2
    exact congrArg BlockId.mk heq
  · rcases mem_cons.mp hb with rfl | hb
    · rw [Function.size_addBlock]
      exact Nat.lt_succ_self _
    · exact hlt (h.exist b hb)
  · rw [hprogram] at hid ⊢
    rcases mem_cons.mp hb with rfl | hb
    · exact absurd (h.wf.lt_blocks hid) (lt_irrefl _)
    · exact h.plain b hb id hid
  · rw [hprogram] at hc
    exact ⟨(h.target b c hc).1, hlt (h.target b c hc).2⟩

end

section Push

variable {b : BlockId} {inst : Instruction} {dest : Option OperandId} {sources : List OperandId}

/-- An operation may be added at the end of the block. -/
structure Accepts (joins : Prop) (f : Function) (b : BlockId) (inst : Instruction)
    (dest : Option OperandId) (sources : List OperandId) : Prop where
  length : sources.length ≤ maxSources
  source_lt : ∀ o ∈ sources, o.index < f.operands.size
  dest_lt : ∀ d, dest = some d → d.index < f.operands.size
  admissible : f.program.Admissible ⟨inst, dest, sources⟩
  source : ∀ o ∈ sources, ∀ i, f.program.kind o = .local_ i →
    f.program.DefinedAt b (f.program.code b) o
  compare : ∀ cmp, inst = .compare cmp → ∀ o ∈ sources,
    f.program.ty o = f.program.sourceTy ⟨inst, dest, sources⟩
  /-- The result is a new local or a register. -/
  result : ∀ d, dest = some d →
    ((∃ i, f.program.kind d = .local_ i) ∧ ∀ c, ¬f.program.Defines c d) ∨
      ∃ r, f.program.kind d = .register r
  /-- Control goes on in other blocks that are fresh. -/
  target : ∀ t ∈ inst.targets, t ≠ b ∧ f.Fresh t
  alone : joins ∨ ∀ t ∈ inst.targets, ∀ c, t ∉ f.program.successors c

variable (h : Draft tys joins f unfinished) (hb : b ∈ unfinished)
  (ha : Accepts joins f b inst dest sources)

include h

theorem not_mem_code (c : BlockId) : (⟨f.operations.size⟩ : OpId) ∉ f.program.code c :=
  fun hid => lt_irrefl _ (h.wf.lt_operations hid)

include hb ha

theorem inserted : Function.Inserted f b ⟨inst, dest, sources⟩
    (f.program.code b ++ [⟨f.operations.size⟩]) (f.pushBack b inst dest sources) :=
  h.wf.inserted_pushBack inst (h.exist b hb) ha.length ha.source_lt ha.dest_lt

theorem program_pushBack : (f.pushBack b inst dest sources).2.program =
    f.program.append b ⟨f.operations.size⟩ ⟨inst, dest, sources⟩ :=
  (h.inserted hb ha).program

omit h hb in
theorem Accepts.dead {t : BlockId} (ht : t ∈ inst.targets) : f.program.successors t = [] := by
  rw [Program.successors, (ha.target t ht).2.code]
  rfl

/-- The operation ends the block if it is a terminator. -/
theorem push {left : List BlockId}
    (hleft : ∀ c, c ∈ left ↔ c ∈ unfinished ∧ (inst.isTerminator = true → c ≠ b)) :
    Draft tys joins (f.pushBack b inst dest sources).2 left := by
  have hI := h.inserted hb ha
  have hprogram := h.program_pushBack hb ha
  have hnew := h.not_mem_code
  refine ⟨hI.wf, hI.pools.blocks ▸ h.entry, fun c hc hmem => ?_,
    fun c hc => hI.pools.blocks ▸ h.exist c ((hleft c).mp hc).1, fun c hc id hid => ?_,
    fun c d hd => ?_, fun d => ?_, fun c id hid => ?_, ?_, fun e he => ?_⟩
  · rw [hI.pools.blocks] at hc
    rw [hprogram]
    by_cases hcb : c = b
    · subst hcb
      have hterm : inst.isTerminator = true := by
        by_contra hnot
        exact hmem ((hleft c).mpr ⟨hb, fun hyes => absurd hyes hnot⟩)
      rw [code_append_self]
      refine .concat (fun id hid => ?_) (stmt_append_self ▸ hterm)
      rw [stmt_append_of_mem hnew hid]
      exact h.plain c hb id hid
    · rw [code_append_of_ne hcb]
      have hold : c ∉ unfinished := fun hmem' => hmem ((hleft c).mpr ⟨hmem', fun _ => hcb⟩)
      refine (h.finished c hc hold).congr fun id hid => ?_
      rw [stmt_append_of_mem hnew hid]
  · obtain ⟨hc, hne⟩ := (hleft c).mp hc
    rw [hprogram] at hid ⊢
    rcases mem_code_append.mp hid with hid | ⟨rfl, rfl⟩
    · rw [stmt_append_of_mem hnew hid]
      exact h.plain c hc id hid
    · rw [stmt_append_self]
      exact Bool.eq_false_iff.mpr fun hterm => hne hterm rfl
  · rw [hprogram] at hd
    rw [hI.pools.blocks]
    by_cases hcb : c = b
    · subst hcb
      rw [successors_append_self] at hd
      exact ⟨(ha.target d hd).2.ne_entry, (ha.target d hd).2.lt⟩
    · rw [successors_append_of_ne hnew hcb] at hd
      exact h.target c d hd
  · rw [hprogram]
    by_cases hd : d ∈ inst.targets
    · rcases ha.alone with hjoins | halone
      · obtain ⟨x, hx⟩ := (ha.target d hd).2.few
        refine ⟨x, b, fun c hc => ?_, .inl hjoins⟩
        by_cases hcb : c = b
        · exact .inr hcb
        · rw [successors_append_of_ne hnew hcb] at hc
          exact .inl (hx c hc)
      · refine ⟨b, b, fun c hc => ?_, .inr rfl⟩
        by_contra hne
        rw [or_self] at hne
        rw [successors_append_of_ne hnew hne] at hc
        exact halone d hd c hc
    · obtain ⟨x, y, hxy, hone⟩ := h.few d
      refine ⟨x, y, fun c hc => ?_, hone⟩
      by_cases hcb : c = b
      · rw [hcb, successors_append_self] at hc
        exact absurd hc hd
      · rw [successors_append_of_ne hnew hcb] at hc
        exact hxy c hc
  · rw [hprogram] at hid ⊢
    rcases mem_code_append.mp hid with hid | ⟨rfl, rfl⟩
    · rw [stmt_append_of_mem hnew hid]
      exact (h.admissible c id hid).append
    · rw [stmt_append_self]
      exact ha.admissible.append
  · rw [hprogram]
    exact h.locals.append hnew (fun t ht => ha.dead ht) (fun t ht => (ha.target t ht).2.code)
      (fun hmem => (ha.target b hmem).1 rfl) ha.source ha.result ha.compare
  · rw [hI.pools.registers] at he
    rw [hprogram]
    exact h.registers e he

theorem grows : f.Grows unfinished (f.pushBack b inst dest sources).2 := by
  have hI := h.inserted hb ha
  have hprogram := h.program_pushBack hb ha
  refine ⟨hI.pools.operandsKept, hI.pools.blocks.symm.le, fun c id hid => ?_, fun c => ?_,
    fun c _ hc => ?_⟩
  · rw [hprogram]
    exact stmt_append_of_mem h.not_mem_code hid
  · rw [hprogram]
    by_cases hcb : c = b
    · rw [hcb, code_append_self]
      exact prefix_append _ _
    · rw [code_append_of_ne hcb]
  · rw [hprogram]
    exact code_append_of_ne fun hcb => hc (hcb ▸ hb)

end Push

/-- There are no more predecessors than blocks that may lead to the block. -/
theorem length_preds (h : Draft tys joins f unfinished) {c : BlockId} {from_ : List BlockId}
    (hfrom : ∀ b, c ∈ f.program.successors b → b ∈ from_) :
    (f.computePredecessors.predecessors c).length ≤ from_.length := by
  have hnodup : (f.computePredecessors.predecessors c).Nodup := h.wf.exactPreds.nodup c
  exact hnodup.length_le_of_subset fun b hb => hfrom b (h.wf.mem_preds.mp hb).2

theorem length_preds_le_two (h : Draft tys joins f []) (c : BlockId) :
    (f.computePredecessors.predecessors c).length ≤ 2 := by
  obtain ⟨x, y, hxy, -⟩ := h.few c
  have hpair : ∀ b, c ∈ f.program.successors b → b ∈ [x, y] := by simpa using hxy
  exact h.length_preds hpair

/-- A draft without unfinished blocks. -/
theorem constructible (h : Draft tys joins f [])
    (htys : ∀ r, (tys r).mask &&& r.width = (tys r).mask) : SSA.Constructible f where
  wf := h.wf
  entry := h.entry
  first b hb := (h.target b _ hb).1 rfl
  exist b c hc := (h.target b c hc).2
  few c := (h.length_preds_le_two c).trans (Nat.le_of_ble_eq_true rfl)
  terminated b hb := h.finished b hb not_mem_nil
  admissible := h.admissible
  valid e he := (h.registers e he).1
  width e he := by
    rw [(h.registers e he).2]
    exact htys e.1

/-- Without joins each block has one predecessor at most. -/
theorem length_preds_le_one (h : Draft tys joins f []) (hjoins : ¬joins) (c : BlockId) :
    (f.computePredecessors.predecessors c).length ≤ 1 := by
  obtain ⟨x, y, hxy, hone⟩ := h.few c
  obtain rfl := hone.resolve_left hjoins
  have hsingle : ∀ b, c ∈ f.program.successors b → b ∈ [x] := by simpa using hxy
  exact h.length_preds hsingle

end Draft

end Dynarec.IR
