import Dynarec.Lift.Assembly
import Dynarec.Proofs.IR.Drafts
import Dynarec.Proofs.Lift.Realized
import Dynarec.Proofs.Lift.Steps

/-!
# Assembled code

Each operation of an assembly keeps its function a draft whose unfinished blocks are the current one
and some that are still fresh, and the results of the current instruction defined at the end of the
current block. In every function that the draft grows into, the operations added carry out the steps
that they were made from.
-/

namespace Dynarec.Lift

open List IR.Instruction

open Guest (Mode)
open IR (BlockId Draft Function Instruction OpId OperandId Program Ty)

def Scope (f : Function) (b : BlockId) (temps : List OperandId) (types : List Ty) : Prop :=
  List.Forall₂ (fun o ty => o.index < f.operands.size ∧ (∃ k, f.program.kind o = .local_ k) ∧
    f.program.ty o = ty ∧ f.program.DefinedAt b (f.program.code b) o) temps types

def Unused (f : Function) (b : BlockId) : Prop := ∀ c, b ∉ f.program.successors c

theorem Scope.init {f : Function} {b : BlockId} {temps : List OperandId} {types : List Ty}
    {d : OperandId} {ty : Ty} (h : Scope f b (temps ++ [d]) (types ++ [ty])) :
    Scope f b temps types := by
  have hlength : temps.length = types.length := by simpa using List.Forall₂.length_eq h
  have htake := forall₂_take temps.length h
  rwa [take_left, hlength, take_left] at htake

section Extends

variable {f g : Function} (h : f.Extends g) {b : BlockId}

include h

theorem Scope.extend {temps : List OperandId} {types : List Ty} (hs : Scope f b temps types) :
    Scope g b temps types := by
  refine List.Forall₂.imp (fun o ty ho => ?_) hs
  obtain ⟨hlt, ⟨k, hk⟩, hty, hdef⟩ := ho
  rw [h.kind_eq hlt, h.ty_eq hlt, h.code_eq]
  exact ⟨hlt.trans_le h.size_le, ⟨k, hk⟩, hty, h.definedAt hdef⟩

theorem Unused.extend (hb : Unused f b) : Unused g b := fun c hc => by
  rw [h.successors_eq] at hc
  exact hb c hc

theorem fresh_extend (hb : f.Fresh b) : g.Fresh b where
  lt := h.blocks ▸ hb.lt
  ne_entry := hb.ne_entry
  code := h.code_eq ▸ hb.code
  few := h.successors_eq ▸ hb.few

end Extends

theorem Denotes.grow {f g : Function} {unfinished : List BlockId} {temps : List OperandId}
    {v : Value} {o : OperandId} (hv : Denotes f.program temps v o) (h : f.Grows unfinished g)
    (ho : o.index < f.operands.size) : Denotes g.program temps v o := by
  cases v <;> simpa only [Denotes, h.kind o ho, h.ty o ho] using hv

section Append

variable {tys : IR.GuestReg → Ty} {joins : Prop} {f : Function} {unfinished : List BlockId}
  {b c : BlockId} {inst : Instruction} {dest : Option OperandId} {sources : List OperandId}
  (h : Draft tys joins f unfinished) (hb : b ∈ unfinished)
  (ha : Draft.Accepts joins f b inst dest sources)

include h hb ha

/-- New edges are those of the new operation. -/
theorem mem_successors_pushBack {t : BlockId}
    (ht : t ∈ (f.pushBack b inst dest sources).2.program.successors c) :
    t ∈ f.program.successors c ∨ (c = b ∧ t ∈ inst.targets) := by
  rw [h.program_pushBack hb ha] at ht
  by_cases hc : c = b
  · rw [hc, Program.successors_append_self] at ht
    exact .inr ⟨hc, ht⟩
  · rw [Program.successors_append_of_ne h.not_mem_code hc] at ht
    exact .inl ht

/-- A block stays fresh if the new operation does not lead to it, or is the first that does. -/
theorem fresh_pushBack (hc : f.Fresh c) (hne : c ≠ b) (ht : c ∈ inst.targets → Unused f c) :
    (f.pushBack b inst dest sources).2.Fresh c := by
  have hpools := (h.inserted hb ha).pools
  refine ⟨hpools.blocks ▸ hc.lt, hc.ne_entry, ?_, ?_⟩
  · rw [h.program_pushBack hb ha, Program.code_append_of_ne hne]
    exact hc.code
  · obtain ⟨x, hx⟩ := hc.few
    by_cases hmem : c ∈ inst.targets
    · refine ⟨b, fun d hd => ?_⟩
      rcases mem_successors_pushBack h hb ha hd with hd | ⟨hd, -⟩
      · exact absurd hd (ht hmem d)
      · exact hd
    · refine ⟨x, fun d hd => ?_⟩
      rcases mem_successors_pushBack h hb ha hd with hd | ⟨-, hd⟩
      · exact hx d hd
      · exact absurd hd hmem

section Scope

variable {temps : List OperandId} {types : List Ty}

/-- What is defined at the end of a block stays so, also at the end of the code of the new one. -/
theorem Scope.pushBack (hs : Scope f c temps types) (hc : c ∉ inst.targets) :
    Scope (f.pushBack b inst dest sources).2 c temps types := by
  have hpools := (h.inserted hb ha).pools
  have hprogram := h.program_pushBack hb ha
  refine List.Forall₂.imp (fun o ty ho => ?_) hs
  obtain ⟨hlt, ⟨k, hk⟩, hty, hdef⟩ := ho
  refine ⟨hpools.operands.symm ▸ hlt, ⟨k, (hpools.kind o).trans hk⟩, (hpools.ty o).trans hty, ?_⟩
  rw [hprogram]
  refine (hdef.append h.not_mem_code (fun t ht => ha.dead ht) (fun _ hx => hx) hc).mono ?_
  exact fun x hx => Program.mem_code_append.mpr (.inl hx)

/-- What is defined at the end of a block is defined in the blocks that only it leads to. -/
theorem Scope.enter (hs : Scope f b temps types) (hc : c ∈ inst.targets) (hunused : Unused f c) :
    Scope (f.pushBack b inst dest sources).2 c temps types := by
  have hpools := (h.inserted hb ha).pools
  have hprogram := h.program_pushBack hb ha
  have hself : b ∉ inst.targets := fun hmem => (ha.target b hmem).1 rfl
  refine List.Forall₂.imp (fun o ty ho => ?_) hs
  obtain ⟨hlt, ⟨k, hk⟩, hty, hdef⟩ := ho
  refine ⟨hpools.operands.symm ▸ hlt, ⟨k, (hpools.kind o).trans hk⟩, (hpools.ty o).trans hty, ?_⟩
  rw [hprogram]
  exact .inr (hdef.before_target h.not_mem_code (fun t ht => ha.dead ht) hself
    (ha.target c hc).2.ne_entry hunused)

end Scope

end Append

namespace Assembly

variable {mode : Mode} {a : Assembly} {types : List Ty} {pending : List BlockId}
  {inst : Instruction} {temps ids : List OperandId} {f g : Function} {b : BlockId} {v : Value}
  {t : Bool} {d : OperandId} {ty : Ty} {types' : List Ty} {dest : Option OperandId}
  {values : List Value}

section

variable (mode a types pending)

/-- Operations can be added to the current block. The blocks in `pending` are added to later. -/
structure Sound : Prop where
  draft : Draft (registerTy mode) (mode = .a32) a.f (a.block :: pending)
  fresh : ∀ b ∈ pending, b ≠ a.block ∧ a.f.Fresh b
  scope : Scope a.f a.block a.temps types
  unfinished : a.terminated = false

structure Ended : Prop where
  draft : Draft (registerTy mode) (mode = .a32) a.f pending
  fresh : ∀ b ∈ pending, a.f.Fresh b
  terminated : a.terminated = true

end

/-- The code that a function has after what the assembly put into the current block. -/
def rest (a : Assembly) (g : Function) : List OpId :=
  (g.program.code a.block).drop (a.f.program.code a.block).length

/-- Operations can be added to a fresh block. -/
theorem Sound.switchTo (hdraft : Draft (registerTy mode) (mode = .a32) f (b :: pending))
    (hfresh : ∀ c ∈ pending, c ≠ b ∧ f.Fresh c) (hscope : Scope f b temps types) :
    Sound mode ⟨f, b, false, temps⟩ types pending :=
  ⟨hdraft, hfresh, hscope, rfl⟩

/-- The operands `ids` of `g` hold the values, and `g` has no more than `f` but operands. -/
structure Resolves (f g : Function) (temps : List OperandId) (values : List Value)
    (ids : List OperandId) : Prop where
  grows : f.Extends g
  lt : ∀ o ∈ ids, o.index < g.operands.size
  denotes : List.Forall₂ (Denotes g.program temps) values ids

section

variable (h : a.Sound mode types pending)

include h

theorem Sound.lt : a.block.index < a.f.blocks.size :=
  h.draft.exist a.block (.head _)

theorem Sound.not_mem : a.block ∉ pending :=
  fun hmem => (h.fresh _ hmem).1 rfl

theorem Sound.withoutTemps : { a with temps := [] }.Sound mode [] pending :=
  ⟨h.draft, h.fresh, .nil, h.unfinished⟩

/-! ### Operands -/

/-- New operands. -/
theorem Sound.extend (hdraft : Draft (registerTy mode) (mode = .a32) f (a.block :: pending))
    (hext : a.f.Extends f) :
    { a with f }.Sound mode types pending :=
  ⟨hdraft, fun b hb => ⟨(h.fresh b hb).1, fresh_extend hext (h.fresh b hb).2⟩,
    h.scope.extend hext, h.unfinished⟩

theorem Sound.operand (hv : v.Known mode types) :
    ∃ o f, a.operand v = (o, { a with f }) ∧ { a with f }.Sound mode types pending ∧
      Resolves a.f f a.temps [v] [o] := by
  cases v with
  | const value ty =>
    obtain ⟨-, hext, -, hlt, hkind, hty⟩ := h.draft.wf.constant value ty
    exact ⟨(a.f.constant value ty).1, (a.f.constant value ty).2, rfl,
      h.extend (h.draft.constant value ty) hext, hext, forall_mem_singleton.mpr hlt,
      .cons ⟨hkind, hty⟩ .nil⟩
  | reg r ty =>
    obtain ⟨hr, rfl⟩ := hv
    obtain ⟨-, hext, hlt, hkind⟩ := h.draft.wf.register r (registerTy mode r)
    have hdraft := h.draft.register hr
    have hmem := (hdraft.wf.interned.mem_registers r _).mpr ⟨hlt, hkind⟩
    exact ⟨(a.f.register r _).1, (a.f.register r _).2, rfl, h.extend hdraft hext, hext,
      forall_mem_singleton.mpr hlt, .cons ⟨hkind, (hdraft.registers _ hmem).2⟩ .nil⟩
  | temp i ty =>
    have hi : types[i]? = some ty := hv
    obtain ⟨hlt, rfl⟩ := List.getElem?_eq_some_iff.mp hi
    have hlt' : i < a.temps.length := List.Forall₂.length_eq h.scope ▸ hlt
    have htemp := List.Forall₂.get h.scope hlt' hlt
    have hget : a.temps[i]? = some a.temps[i] := getElem?_eq_getElem hlt'
    refine ⟨a.temps[i], a.f, ?_, h, .refl a.f, forall_mem_singleton.mpr htemp.1,
      .cons ⟨hget, htemp.2.1, htemp.2.2.1⟩ .nil⟩
    rw [Assembly.operand, getD_eq_getElem?_getD, hget]
    rfl

theorem Sound.operands {values : List Value} (hvalues : ∀ v ∈ values, v.Known mode types) :
    ∃ ids f, a.operands values = (ids, { a with f }) ∧ { a with f }.Sound mode types pending ∧
      Resolves a.f f a.temps values ids := by
  induction values generalizing a with
  | nil => exact ⟨[], a.f, rfl, h, .refl a.f, fun _ ho => (by cases ho), .nil⟩
  | cons v values ih =>
    obtain ⟨o, f, heq, hfirst, hone⟩ := h.operand (hvalues v (.head _))
    obtain ⟨ids, g, heq', hrest, hmore⟩ :=
      ih hfirst fun w hw => hvalues w (.tail _ hw)
    have hlt := hone.lt o (.head _)
    refine ⟨o :: ids, g, ?_, hrest, hone.grows.trans hmore.grows, fun x hx => ?_, ?_⟩
    · rw [Assembly.operands, heq]
      dsimp only
      rw [heq']
    · rcases mem_cons.mp hx with rfl | hx
      · exact hlt.trans_le hmore.grows.size_le
      · exact hmore.lt x hx
    · cases hone.denotes with
      | cons hv _ => exact .cons (hv.grow (.of_extends hmore.grows []) hlt) hmore.denotes

end

/-! ### Operations -/

/-- An operation on values that leads to pending blocks can be added. -/
theorem Sound.accepts (h : a.Sound mode types pending)
    (hvalues : List.Forall₂ (Denotes a.f.program a.temps) values ids)
    (hlt : ∀ o ∈ ids, o.index < a.f.operands.size) (hlength : values.length ≤ 3)
    (hcompare : ∀ cmp, inst = .compare cmp → ∀ v ∈ values, v.ty = sourceTy values)
    (hadmissible : a.f.program.Admissible ⟨inst, dest, ids⟩)
    (hdest : ∀ d, dest = some d → d.index < a.f.operands.size)
    (hresult : ∀ d, dest = some d →
      ((∃ i, a.f.program.kind d = .local_ i) ∧ ∀ c, ¬a.f.program.Defines c d) ∨
        ∃ r, a.f.program.kind d = .register r)
    (htarget : ∀ t ∈ inst.targets, t ∈ pending)
    (halone : mode = .a32 ∨ ∀ t ∈ inst.targets, Unused a.f t) :
    Draft.Accepts (mode = .a32) a.f a.block inst dest ids where
  length := by
    rw [← hvalues.length_eq]
    exact hlength.trans (by decide)
  source_lt := hlt
  dest_lt := hdest
  admissible := hadmissible
  source o ho i hi := by
    obtain ⟨v, -, hv⟩ : ∃ v ∈ values, Denotes a.f.program a.temps v o :=
      IR.exists_of_forall₂ hvalues.flip ho
    cases v with
    | const value ty => rw [hv.1] at hi; cases hi
    | reg r ty => rw [hv.1] at hi; cases hi
    | temp j ty =>
      obtain ⟨_, -, -, -, -, hdef⟩ := IR.exists_of_forall₂ h.scope (mem_of_getElem? hv.1)
      exact hdef
  compare cmp hcmp o ho := by
    obtain ⟨v, hmem, hv⟩ : ∃ v ∈ values, Denotes a.f.program a.temps v o :=
      IR.exists_of_forall₂ hvalues.flip ho
    rw [hv.ty_eq, hcompare cmp hcmp v hmem]
    cases hvalues with
    | nil => rfl
    | cons hfirst _ => exact hfirst.ty_eq.symm
  result := hresult
  target t ht := h.fresh t (htarget t ht)
  alone := halone

section Push

variable (h : a.Sound mode types pending)
  (ha : Draft.Accepts (mode = .a32) a.f a.block inst dest ids)

include h ha

/-- What is left of the current block starts with the new operation. -/
theorem Sound.rest_append {unfinished : List BlockId}
    (hg : (a.append inst dest ids).f.Grows unfinished g) :
    ∃ id, a.rest g = id :: (a.append inst dest ids).rest g ∧
      g.program.stmt id = ⟨inst, dest, ids⟩ := by
  have hprogram : (a.append inst dest ids).f.program =
      a.f.program.append a.block ⟨a.f.operations.size⟩ ⟨inst, dest, ids⟩ :=
    h.draft.program_pushBack (.head _) ha
  have hcode : (a.append inst dest ids).f.program.code a.block =
      a.f.program.code a.block ++ [⟨a.f.operations.size⟩] := by
    rw [hprogram, Program.code_append_self]
  refine ⟨⟨a.f.operations.size⟩, ?_, ?_⟩
  · have hall : g.program.code a.block =
        (a.append inst dest ids).f.program.code a.block ++ (a.append inst dest ids).rest g :=
      prefix_iff_eq_append.mp (hg.code a.block) |>.symm
    rw [hcode] at hall
    unfold rest at hall ⊢
    rw [hall]
    simp
  · rw [hg.stmt a.block _ (hcode ▸ by simp), hprogram, Program.stmt_append_self]

/-- Nothing follows a terminator. -/
theorem Sound.rest_append_nil {unfinished : List BlockId}
    (hg : (a.append inst dest ids).f.Grows unfinished g) (hblock : a.block ∉ unfinished) :
    (a.append inst dest ids).rest g = [] := by
  have hpools := (h.draft.inserted (.head _) ha).pools
  have hcode := hg.finished a.block (hpools.blocks.symm ▸ h.lt) hblock
  unfold rest
  rw [show (a.append inst dest ids).block = a.block from rfl, hcode, drop_length]

theorem Sound.grows_append : a.f.Grows (a.block :: pending) (a.append inst dest ids).f :=
  h.draft.grows (.head _) ha

theorem Sound.append (hterm : inst.isTerminator = false) :
    (a.append inst dest ids).Sound mode types pending := by
  have htargets : ∀ t, t ∉ inst.targets := by
    simp [targets_of_not_terminator hterm]
  refine ⟨h.draft.push (.head _) ha (by simp [Assembly.append, hterm]), fun b hb => ?_,
    ?_, h.unfinished⟩
  · obtain ⟨hne, hfresh⟩ := h.fresh b hb
    exact ⟨hne, fresh_pushBack h.draft (.head _) ha hfresh hne fun hmem => absurd hmem (htargets b)⟩
  · exact h.scope.pushBack h.draft (.head _) ha (htargets a.block)

end Push

theorem rest_congr (hcode : f.program.code a.block = a.f.program.code a.block) (g : Function) :
    { a with f }.rest g = a.rest g := by
  rw [rest, hcode]
  rfl

theorem rest_eq_code (hcode : f.program.code b = []) (g : Function) :
    rest ⟨f, b, t, temps⟩ g = g.program.code b := by
  rw [rest, hcode]
  rfl

def Result (f : Function) (dest : Option OperandId) : Prop :=
  ∀ d, dest = some d → d.index < f.operands.size ∧
    (((∃ k, f.program.kind d = .local_ k) ∧ ∀ c, ¬f.program.Defines c d) ∨
      ∃ r, f.program.kind d = .register r)

theorem Result.extend (h : Result f dest) (hext : f.Extends g) : Result g dest := by
  intro d hd
  obtain ⟨hlt, hkind⟩ := h d hd
  refine ⟨hlt.trans_le hext.size_le, ?_⟩
  rw [hext.kind_eq hlt]
  refine hkind.imp_left fun hlocal => ⟨hlocal.1, fun c hdef => hlocal.2 c ?_⟩
  rwa [Program.Defines, hext.code_eq, hext.stmt_eq] at hdef

/-- In the functions that `f` grows into, an operation on values stands where `a` stopped. -/
def Stands (a : Assembly) (inst : Instruction) (dest : Option OperandId) (values : List Value)
    (f : Function) : Prop :=
  ∃ ids, ∀ g unfinished, f.Grows unfinished g →
    (∃ id, a.rest g = id :: { a with f }.rest g ∧ g.program.stmt id = ⟨inst, dest, ids⟩) ∧
      List.Forall₂ (Denotes g.program a.temps) values ids

section

variable (h : a.Sound mode types pending) (hlength : values.length ≤ 3)
  (hvalues : ∀ v ∈ values, v.Known mode types)
  (hcompare : ∀ cmp, inst = .compare cmp → ∀ v ∈ values, v.ty = sourceTy values)

include h hlength hvalues hcompare

theorem Sound.push (hterm : inst.isTerminator = false)
    (hadmissible : ∀ f ids, a.f.Extends f → List.Forall₂ (Denotes f.program a.temps) values ids →
      f.program.Admissible ⟨inst, dest, ids⟩)
    (hresult : Result a.f dest) :
    ∃ f, a.push inst dest values = { a with f } ∧ { a with f }.Sound mode types pending ∧
      a.f.Grows (a.block :: pending) f ∧ Stands a inst dest values f := by
  obtain ⟨ids, f, heq, hs, hr⟩ := h.operands hvalues
  have hresult' := hresult.extend hr.grows
  have ha : Draft.Accepts (mode = .a32) f a.block inst dest ids := by
    refine hs.accepts hr.denotes hr.lt hlength hcompare (hadmissible f ids hr.grows hr.denotes)
      (fun d hd => (hresult' d hd).1) (fun d hd => (hresult' d hd).2) ?_ ?_ <;>
    simp [targets_of_not_terminator hterm]
  have hgrows := hs.grows_append ha
  refine ⟨_, ?_, hs.append ha hterm, (Function.Grows.of_extends hr.grows _).trans hgrows
    fun _ hb _ => hb, ids, fun g unfinished hg => ⟨?_, ?_⟩⟩
  · rw [Assembly.push, heq]
    rfl
  · obtain ⟨id, hrest, hstmt⟩ := hs.rest_append ha hg
    rw [rest_congr (congrFun hr.grows.code_eq a.block)] at hrest
    exact ⟨id, hrest, hstmt⟩
  · refine IR.forall₂_imp_mem hr.denotes fun v _ o ho hv => ?_
    have hlt := (hr.lt o ho).trans_le hgrows.operands
    exact (hv.grow hgrows (hr.lt o ho)).grow hg hlt

theorem Sound.pushLocal (hinst : inst.hasValue = true) (hcopy : inst ≠ .copy)
    (hload : ∀ r, inst ≠ .loadContext (.register r)) (ty : Ty) :
    ∃ d k f, a.pushLocal inst ty values = (d, { a with f }) ∧
      Assembly.Sound mode { a with f, temps := a.temps ++ [d] } (types ++ [ty]) pending ∧
      a.f.Grows (a.block :: pending) f ∧ Stands a inst (some d) values f ∧ d ∉ a.temps ∧
      d.index < f.operands.size ∧ f.program.kind d = .local_ k ∧ f.program.ty d = ty := by
  have hmore := Function.oneMore_newLocal (f := a.f) ty
  have hnew := h.extend (h.draft.newLocal ty) hmore.grows
  have hlt : (a.f.newLocal ty).1.index < (a.f.newLocal ty).2.operands.size :=
    hmore.lt_size
  have hkind : (a.f.newLocal ty).2.program.kind (a.f.newLocal ty).1 = .local_ a.f.localCount :=
    congrArg IR.Operand.kind hmore.operand_new
  have hty : (a.f.newLocal ty).2.program.ty (a.f.newLocal ty).1 = ty :=
    congrArg IR.Operand.ty hmore.operand_new
  have hresult : Result (a.f.newLocal ty).2 (some (a.f.newLocal ty).1) := by
    rintro d ⟨⟩
    refine ⟨hlt, .inl ⟨⟨_, hkind⟩, ?_⟩⟩
    rintro c ⟨id, hid, hdest⟩
    rw [hmore.grows.code_eq] at hid
    exact lt_irrefl _ (h.draft.wf.dest_lt hid hdest)
  have hterm : inst.isTerminator = false := by
    rw [← Bool.not_eq_true]
    intro hyes
    rw [hasValue_of_isTerminator hyes] at hinst
    cases hinst
  have hadmissible : ∀ f ids, (a.f.newLocal ty).2.Extends f →
      List.Forall₂ (Denotes f.program a.temps) values ids →
      f.program.Admissible ⟨inst, some (a.f.newLocal ty).1, ids⟩ := by
    intro f ids hext _
    refine ⟨?_, hload, ?_, fun d r hd hr => ?_, fun hyes => absurd hyes hcopy⟩
    · rintro rfl
      cases hinst
    · rintro r rfl
      cases hinst
    · obtain rfl := Option.some.inj hd
      rw [hext.kind_eq hlt, hkind] at hr
      cases hr
  obtain ⟨f, heq, hs, hgrows, hstands⟩ :=
    hnew.push hlength hvalues hcompare hterm hadmissible hresult
  have hkind' := (hgrows.kind _ hlt).trans hkind
  have hty' := (hgrows.ty _ hlt).trans hty
  have hlt' := hlt.trans_le hgrows.operands
  refine ⟨_, _, f, ?_, ⟨hs.draft, hs.fresh, ?_, hs.unfinished⟩,
    (Function.Grows.of_extends hmore.grows _).trans hgrows fun _ hb _ => hb, ?_, fun hmem => ?_,
    hlt', hkind', hty'⟩
  · exact congrArg (Prod.mk _) heq
  · refine rel_append hs.scope (.cons ⟨hlt', ⟨_, hkind'⟩, hty', .inl ?_⟩ .nil)
    obtain ⟨ids, hall⟩ := hstands
    obtain ⟨⟨id, hrest, hstmt⟩, -⟩ := hall f [] (.refl f [])
    refine ⟨id, ?_, by rw [hstmt]⟩
    have hmem : id ∈ Assembly.rest { a with f := (a.f.newLocal ty).2 } f := hrest ▸ by simp
    exact mem_of_mem_drop hmem
  · obtain ⟨ids, hall⟩ := hstands
    refine ⟨ids, fun g unfinished hg => ?_⟩
    have hstand := hall g unfinished hg
    rwa [rest_congr (congrFun hmore.grows.code_eq a.block)] at hstand
  · obtain ⟨_, -, hold, -⟩ := IR.exists_of_forall₂ h.scope hmem
    exact lt_irrefl _ hold

end

/-! ### Terminators -/

section

variable (mode a types pending inst ids f)

/-- What a terminator of the current block comes to, in the function that has it. -/
structure Terminates : Prop where
  draft : Draft (registerTy mode) (mode = .a32) f pending
  fresh : ∀ b ∈ pending, (b ∈ inst.targets → Unused a.f b) → f.Fresh b
  enter : ∀ b ∈ inst.targets, Unused a.f b → Scope f b a.temps types
  other : ∀ b temps types, b ∉ inst.targets → Scope a.f b temps types → Scope f b temps types
  empty : ∀ b ∈ pending, f.program.code b = []
  grows : a.f.Grows (a.block :: pending) f
  rest : ∀ g unfinished, f.Grows unfinished g → a.block ∉ unfinished →
    ∃ id, a.rest g = [id] ∧ g.program.stmt id = ⟨inst, none, ids⟩

/-- What a branch to two new blocks comes to. -/
structure Forks : Prop where
  draft : Draft (registerTy mode) (mode = .a32) f
    (⟨a.f.blocks.size⟩ :: ⟨a.f.blocks.size + 1⟩ :: pending)
  fresh : ∀ b ∈ (⟨a.f.blocks.size⟩ : BlockId) :: ⟨a.f.blocks.size + 1⟩ :: pending, f.Fresh b
  first : Scope f ⟨a.f.blocks.size⟩ a.temps types
  second : Scope f ⟨a.f.blocks.size + 1⟩ a.temps types
  grows : a.f.Grows (a.block :: pending) f
  rest : ∀ g unfinished, f.Grows unfinished g → a.block ∉ unfinished →
    ∃ id, a.rest g = [id] ∧ g.program.stmt id = ⟨inst, none, ids⟩

end

theorem Sound.terminate (h : a.Sound mode types pending)
    (ha : Draft.Accepts (mode = .a32) a.f a.block inst none ids)
    (hterm : inst.isTerminator = true) :
    Terminates mode a types pending inst ids (a.append inst none ids).f where
  draft := by
    refine h.draft.push (.head _) ha fun c => ⟨fun hc => ?_, fun hc => ?_⟩
    · exact ⟨.tail _ hc, fun _ => (h.fresh c hc).1⟩
    · exact (mem_cons.mp hc.1).resolve_left (hc.2 hterm)
  fresh b hb ht := fresh_pushBack h.draft (.head _) ha (h.fresh b hb).2 (h.fresh b hb).1 ht
  enter b hb hunused := h.scope.enter h.draft (.head _) ha hb hunused
  other b temps types hb hscope := hscope.pushBack h.draft (.head _) ha hb
  empty b hb := by
    obtain ⟨hne, hfresh⟩ := h.fresh b hb
    exact (congrArg (Program.code · b) (h.draft.program_pushBack (.head _) ha)).trans
      ((Program.code_append_of_ne hne).trans hfresh.code)
  grows := h.grows_append ha
  rest g unfinished hg hblock := by
    obtain ⟨id, hrest, hstmt⟩ := h.rest_append ha hg
    rw [h.rest_append_nil ha hg hblock] at hrest
    exact ⟨id, hrest, hstmt⟩

/-- New operands before the terminator make no difference. -/
theorem Terminates.of_extends (hext : a.f.Extends f)
    (h : Terminates mode { a with f } types pending inst ids g) :
    Terminates mode a types pending inst ids g where
  draft := h.draft
  fresh b hb ht := h.fresh b hb fun hmem => (ht hmem).extend hext
  enter b hb hunused := h.enter b hb (hunused.extend hext)
  other b temps types hb hscope := h.other b temps types hb (hscope.extend hext)
  empty := h.empty
  grows := (Function.Grows.of_extends hext _).trans h.grows fun _ hb _ => hb
  rest g unfinished hg hblock := by
    obtain ⟨id, hrest, hstmt⟩ := h.rest g unfinished hg hblock
    rw [rest_congr (congrFun hext.code_eq a.block)] at hrest
    exact ⟨id, hrest, hstmt⟩

theorem Sound.close (h : a.Sound mode types pending)
    (hterm : inst.isTerminator = true) (hlength : values.length ≤ 3)
    (hvalues : ∀ v ∈ values, v.Known mode types) (htarget : ∀ t ∈ inst.targets, t ∈ pending)
    (halone : mode = .a32 ∨ ∀ t ∈ inst.targets, Unused a.f t) :
    ∃ ids f, a.close inst values = ⟨f, a.block, true, a.temps⟩ ∧
      Terminates mode a types pending inst ids f ∧
      ∀ g unfinished, f.Grows unfinished g →
        List.Forall₂ (Denotes g.program a.temps) values ids := by
  obtain ⟨ids, f, heq, hs, hr⟩ := h.operands hvalues
  have hadmissible : f.program.Admissible ⟨inst, none, ids⟩ := by
    refine ⟨?_, ?_, ?_, fun _ _ hd => (by cases hd), fun _ _ _ hd => (by cases hd)⟩
    all_goals
      intros
      rintro rfl
      cases hterm
  have hcompare : ∀ cmp, inst = .compare cmp → ∀ v ∈ values, v.ty = sourceTy values := by
    rintro cmp rfl
    cases hterm
  have ha : Draft.Accepts (mode = .a32) f a.block inst none ids :=
    hs.accepts hr.denotes hr.lt hlength hcompare hadmissible (fun _ hd => by cases hd)
      (fun _ hd => by cases hd) htarget
      (halone.imp_right fun hun t ht => (hun t ht).extend hr.grows)
  have hend := hs.terminate ha hterm
  refine ⟨ids, _, ?_, hend.of_extends hr.grows, fun g unfinished hg => ?_⟩
  · rw [Assembly.close, Assembly.push, heq]
    rfl
  · refine IR.forall₂_imp_mem hr.denotes fun v _ o ho hv => ?_
    have hlt := (hr.lt o ho).trans_le hend.grows.operands
    exact (hv.grow hend.grows (hr.lt o ho)).grow hg hlt

/-! ### New blocks -/

theorem Sound.newBlock (h : a.Sound mode types pending) :
    Assembly.Sound mode { a with f := a.f.addBlock.2 } types (⟨a.f.blocks.size⟩ :: pending) ∧
      Unused a.f.addBlock.2 ⟨a.f.blocks.size⟩ := by
  have hprogram := Function.program_addBlock (f := a.f)
  have hsize := Function.size_addBlock (f := a.f)
  have hunused : Unused a.f.addBlock.2 ⟨a.f.blocks.size⟩ := by
    intro c hc
    rw [hprogram] at hc
    exact lt_irrefl _ (h.draft.target c _ hc).2
  refine ⟨⟨h.draft.addBlock.perm fun b => ?_, fun b hb => ?_, ?_, h.unfinished⟩, hunused⟩
  · simp only [mem_cons]
    exact or_left_comm
  · rcases mem_cons.mp hb with rfl | hb
    · refine ⟨fun heq => lt_irrefl _ (heq ▸ h.lt), hsize ▸ Nat.lt_succ_self _,
        fun heq => ?_, ?_, ⟨⟨0⟩, fun c hc => absurd hc (hunused c)⟩⟩
      · have hzero : a.f.blocks.size = 0 := congrArg BlockId.index heq
        exact Nat.lt_irrefl 0 (hzero ▸ h.draft.entry)
      · rw [hprogram]
        exact h.draft.wf.code_eq_nil (lt_irrefl _)
    · obtain ⟨hne, hfresh⟩ := h.fresh b hb
      exact ⟨hne, hsize ▸ Nat.lt_succ_of_lt hfresh.lt, hfresh.ne_entry, hprogram ▸ hfresh.code,
        hprogram ▸ hfresh.few⟩
  · unfold Scope
    rw [hprogram]
    exact h.scope

section

variable (h : a.Sound mode types pending)

include h

theorem Sound.newBlocks :
    Assembly.Sound mode { a with f := a.f.addBlock.2.addBlock.2 } types
        (⟨a.f.blocks.size + 1⟩ :: ⟨a.f.blocks.size⟩ :: pending) ∧
      Unused a.f.addBlock.2.addBlock.2 ⟨a.f.blocks.size⟩ ∧
      Unused a.f.addBlock.2.addBlock.2 ⟨a.f.blocks.size + 1⟩ := by
  obtain ⟨hone, hfirst⟩ := h.newBlock
  obtain ⟨htwo, hsecond⟩ := hone.newBlock
  rw [Function.size_addBlock] at htwo hsecond
  refine ⟨htwo, fun c hc => hfirst c ?_, hsecond⟩
  rwa [Function.program_addBlock] at hc

/-- The block ends with an instruction that has one source. -/
theorem Sound.closeOne (hterm : inst.isTerminator = true) (hv : v.Known mode types)
    (htargets : ∀ t ∈ inst.targets, t ∈ pending)
    (halone : mode = .a32 ∨ ∀ t ∈ inst.targets, Unused a.f t) :
    ∃ o f, a.close inst [v] = ⟨f, a.block, true, a.temps⟩ ∧
      Terminates mode a types pending inst [o] f ∧
      ∀ g unfinished, f.Grows unfinished g → Denotes g.program a.temps v o := by
  obtain ⟨ids, f, heq, hend, hids⟩ :=
    h.close hterm (by simp) (forall_mem_singleton.mpr hv) htargets halone
  have hlength : [v].length = ids.length := (hids f [] (.refl f [])).length_eq
  obtain ⟨o, rfl⟩ := length_eq_one_iff.mp hlength.symm
  refine ⟨o, f, heq, hend, fun g unfinished hg => ?_⟩
  cases hids g unfinished hg with
  | cons ho _ => exact ho

omit h in
theorem Terminates.fork (h : Terminates mode { a with f := a.f.addBlock.2.addBlock.2 } types
      (⟨a.f.blocks.size + 1⟩ :: ⟨a.f.blocks.size⟩ :: pending) inst ids f)
    (hsound : a.Sound mode types pending) (htargets : ∀ t : BlockId,
      t ∈ inst.targets ↔ t = ⟨a.f.blocks.size⟩ ∨ t = ⟨a.f.blocks.size + 1⟩) :
    Forks mode a types pending inst ids f := by
  obtain ⟨-, hfirst, hsecond⟩ := hsound.newBlocks
  have hprogram : a.f.addBlock.2.addBlock.2.program = a.f.program :=
    Function.program_addBlock.trans Function.program_addBlock
  have hperm : ∀ b : BlockId,
      b ∈ ⟨a.f.blocks.size⟩ :: ⟨a.f.blocks.size + 1⟩ :: pending ↔
        b ∈ (⟨a.f.blocks.size + 1⟩) :: ⟨a.f.blocks.size⟩ :: pending := by
    intro b
    simp only [mem_cons]
    exact or_left_comm
  refine ⟨h.draft.perm hperm, fun b hb => h.fresh b ((hperm b).mp hb) fun hmem => ?_,
    h.enter _ ((htargets _).mpr (.inl rfl)) hfirst, h.enter _ ((htargets _).mpr (.inr rfl)) hsecond,
    ?_, fun g unfinished hg hblock => ?_⟩
  · rcases (htargets b).mp hmem with rfl | rfl
    · exact hfirst
    · exact hsecond
  · have hblocks := (Function.Grows.addBlock a.f (a.block :: pending)).trans
      (Function.Grows.addBlock a.f.addBlock.2 (a.block :: pending)) fun _ hb _ => hb
    refine hblocks.trans h.grows fun b hb hlt => ?_
    simp only [mem_cons] at hb ⊢
    rcases hb with hb | rfl | rfl | hb
    · exact .inl hb
    · exact absurd hlt (Nat.le_succ _).not_gt
    · exact absurd hlt (lt_irrefl _)
    · exact .inr hb
  · obtain ⟨id, hrest, hstmt⟩ := h.rest g unfinished hg hblock
    rw [rest_congr (congrFun (congrArg Program.code hprogram) a.block)] at hrest
    exact ⟨id, hrest, hstmt⟩

/-- A branch to two new blocks. -/
theorem Sound.branchNew (hv : v.Known mode types) :
    ∃ o f, Assembly.close { a with f := a.f.addBlock.2.addBlock.2 }
        (.branchIf ⟨a.f.blocks.size⟩ ⟨a.f.blocks.size + 1⟩) [v] = ⟨f, a.block, true, a.temps⟩ ∧
      Forks mode a types pending (.branchIf ⟨a.f.blocks.size⟩ ⟨a.f.blocks.size + 1⟩) [o] f ∧
      ∀ g unfinished, f.Grows unfinished g → Denotes g.program a.temps v o := by
  obtain ⟨hs, hfirst, hsecond⟩ := h.newBlocks
  have hnew : ∀ t ∈ (Instruction.branchIf ⟨a.f.blocks.size⟩ ⟨a.f.blocks.size + 1⟩).targets,
      t ∈ (⟨a.f.blocks.size + 1⟩ : BlockId) :: ⟨a.f.blocks.size⟩ :: pending ∧
        Unused a.f.addBlock.2.addBlock.2 t := by
    intro t ht
    rcases mem_targets_branchIf.mp ht with rfl | rfl
    · exact ⟨by simp, hfirst⟩
    · exact ⟨by simp, hsecond⟩
  obtain ⟨o, f, heq, hend, ho⟩ :=
    hs.closeOne rfl hv (fun t ht => (hnew t ht).1) (.inr fun t ht => (hnew t ht).2)
  exact ⟨o, f, heq, hend.fork h fun _ => mem_targets_branchIf, ho⟩

omit h in
theorem fst_addBlock_addBlock (f : Function) : f.addBlock.2.addBlock.1 = ⟨f.blocks.size + 1⟩ :=
  congrArg BlockId.mk Function.size_addBlock

omit h in
/-- Among the new blocks and the pending ones, the old ones are pending. -/
theorem mem_of_lt {n : Nat} (hb : b ∈ (⟨n⟩ : BlockId) :: ⟨n + 1⟩ :: pending) (hlt : b.index < n) :
    b ∈ pending := by
  simp only [mem_cons] at hb
  rcases hb with rfl | rfl | hb
  · exact absurd hlt (lt_irrefl _)
  · exact absurd hlt Nat.not_succ_lt_self
  · exact hb

/-- The old blocks are none of the new ones. -/
theorem Sound.not_mem_new :
    a.block ∉ (⟨a.f.blocks.size⟩ : BlockId) :: ⟨a.f.blocks.size + 1⟩ :: pending := by
  have hlt := h.lt
  simp only [mem_cons, not_or]
  refine ⟨fun heq => ?_, fun heq => ?_, h.not_mem⟩
  · rw [heq] at hlt
    exact lt_irrefl _ hlt
  · rw [heq] at hlt
    exact Nat.not_succ_lt_self hlt

/-- A pending block is none of the new ones. -/
theorem Sound.ne_new (hb : b ∈ pending) : b ≠ ⟨a.f.blocks.size⟩ ∧ b ≠ ⟨a.f.blocks.size + 1⟩ := by
  have hlt := (h.fresh b hb).2.lt
  constructor
  · rintro rfl
    exact lt_irrefl _ hlt
  · rintro rfl
    exact Nat.not_succ_lt_self hlt

end

theorem Sound.init (h : Sound mode ⟨f, b, t, temps ++ [d]⟩ (types ++ [ty]) pending) :
    Sound mode ⟨f, b, t, temps⟩ types pending :=
  ⟨h.draft, h.fresh, h.scope.init, h.unfinished⟩

/-- A result that only the branch needed is forgotten. -/
theorem Forks.init (h : Forks mode ⟨f, b, t, temps ++ [d]⟩ (types ++ [ty]) pending inst ids g) :
    Forks mode ⟨f, b, t, temps⟩ types pending inst ids g :=
  ⟨h.draft, h.fresh, h.first.init, h.second.init, h.grows, h.rest⟩

section Forks

variable (h : Forks mode a types pending inst ids f) (hsound : a.Sound mode types pending)

include h hsound

/-- Go on in the first of the two blocks. -/
theorem Forks.sound_first :
    Sound mode ⟨f, ⟨a.f.blocks.size⟩, false, a.temps⟩ types (⟨a.f.blocks.size + 1⟩ :: pending) := by
  refine .switchTo h.draft (fun b hb => ⟨?_, h.fresh b (.tail _ hb)⟩) h.first
  rcases mem_cons.mp hb with rfl | hb
  · exact fun heq => Nat.succ_ne_self _ (congrArg BlockId.index heq)
  · exact (hsound.ne_new hb).1

/-- Go on in the second block when the first one has been left. -/
theorem Forks.sound_second {last : Instruction} {ids' : List OperandId}
    (hend : Terminates mode ⟨f, ⟨a.f.blocks.size⟩, false, a.temps⟩ types
      (⟨a.f.blocks.size + 1⟩ :: pending) last ids' g) (hlast : last.targets = []) :
    Sound mode ⟨g, ⟨a.f.blocks.size + 1⟩, false, a.temps⟩ types pending := by
  have hno : ∀ b, b ∉ last.targets := by simp [hlast]
  refine .switchTo hend.draft (fun b hb => ⟨(hsound.ne_new hb).2, ?_⟩)
    (hend.other _ _ _ (hno _) h.second)
  exact hend.fresh b (.tail _ hb) fun hmem => absurd hmem (hno b)

end Forks

/-! ### Steps -/

section

variable (mode : Mode) (pending : List BlockId) (a : Assembly) (steps : List Step)

/-- Steps lead from one assembly to another, and the operations added carry them out. -/
structure Assembles (a' : Assembly) (types : List Ty) : Prop where
  sound : a'.Sound mode types pending
  grows : a.f.Grows (a.block :: pending) a'.f
  block : a'.block = a.block ∨ a.f.blocks.size ≤ a'.block.index
  realizes : ∀ g, a'.f.Grows (a'.block :: pending) g →
    Realizes g.program a.temps (a.rest g) steps (.on a'.temps (a'.rest g))

structure Finishes (a' : Assembly) : Prop where
  ended : a'.Ended mode pending
  grows : a.f.Grows (a.block :: pending) a'.f
  realizes : ∀ g, a'.f.Grows pending g → Realizes g.program a.temps (a.rest g) steps .ended

def Assembled (types : List Ty) : Prop :=
  Assembles mode pending a steps (a.steps steps) types ∨
    (∃ s ∈ steps, s.isFinal = true) ∧ Finishes mode pending a steps (a.steps steps)

end

namespace Assembles

variable {a' a'' : Assembly} {first second : List Step}

section

variable (h : Assembles mode pending a first a' types)

include h

theorem unfinished (b : BlockId) (hb : b ∈ a'.block :: pending) (hlt : b.index < a.f.blocks.size) :
    b ∈ a.block :: pending := by
  rcases mem_cons.mp hb with rfl | hb
  · rcases h.block with heq | hnew
    · exact heq ▸ .head _
    · exact absurd hlt hnew.not_gt
  · exact .tail _ hb

omit h in
theorem refl (h : a.Sound mode types pending) : Assembles mode pending a [] a types :=
  ⟨h, .refl _ _, .inl rfl, fun _ _ => .nil⟩

theorem trans (h' : Assembles mode pending a' second a'' types') :
    Assembles mode pending a (first ++ second) a'' types' where
  sound := h'.sound
  grows := h.grows.trans h'.grows h.unfinished
  block := by
    rcases h'.block with heq | hnew
    · exact heq ▸ h.block
    · exact .inr (h.grows.blocks.trans hnew)
  realizes g hg :=
    (h.realizes g (h'.grows.trans hg h'.unfinished)).append (h'.realizes g hg)

theorem finish (h' : Finishes mode pending a' second a'') :
    Finishes mode pending a (first ++ second) a'' where
  ended := h'.ended
  grows := h.grows.trans h'.grows h.unfinished
  realizes g hg :=
    (h.realizes g (h'.grows.trans hg fun _ hb _ => .tail _ hb)).append (h'.realizes g hg)

end

end Assembles

section Step

variable (h : a.Sound mode types pending) {sources : List Value}

include h

theorem Sound.mention (hv : v.Known mode types) :
    Assembles mode pending a [.mention v] (a.step (.mention v)) types := by
  obtain ⟨o, f, heq, hs, hr⟩ := h.operand hv
  rw [step, heq]
  refine ⟨hs, .of_extends hr.grows _, .inl rfl, fun g _ => .mention ?_⟩
  rw [rest_congr (congrFun hr.grows.code_eq a.block)]
  exact .nil

theorem Sound.compute (inst : Instruction) (ty : Ty) (hinst : inst.hasValue = true)
    (hcopy : inst ≠ .copy) (hload : ∀ r, inst ≠ .loadContext (.register r))
    (hlength : sources.length ≤ 3) (hsources : ∀ v ∈ sources, v.Known mode types)
    (hcompare : ∀ cmp, inst = .compare cmp → ∀ v ∈ sources, v.ty = sourceTy sources) :
    Assembles mode pending a [.compute inst ty sources] (a.step (.compute inst ty sources))
      (types ++ [ty]) := by
  obtain ⟨d, k, f, heq, hs, hgrows, hstands, hnew, hlt, hkind, hty⟩ :=
    h.pushLocal hlength hsources hcompare hinst hcopy hload ty
  rw [step, heq]
  refine ⟨hs, hgrows, .inl rfl, fun g hg => ?_⟩
  obtain ⟨ids, hall⟩ := hstands
  obtain ⟨⟨id, hrest, hstmt⟩, hids⟩ := hall g _ hg
  rw [hrest]
  exact .compute hinst hstmt ((hg.kind d hlt).trans hkind) ((hg.ty d hlt).trans hty) hnew hids .nil

theorem Sound.perform (inst : Instruction) (hterm : inst.isTerminator = false)
    (hphi : inst ≠ .phi) (hload : ∀ r, inst ≠ .loadContext (.register r))
    (hstore : ∀ r, inst ≠ .storeContext (.register r)) (hcompare : ∀ cmp, inst ≠ .compare cmp)
    (hlength : sources.length ≤ 3) (hsources : ∀ v ∈ sources, v.Known mode types) :
    Assembles mode pending a [.perform inst sources] (a.step (.perform inst sources)) types := by
  obtain ⟨f, heq, hs, hgrows, ids, hall⟩ : ∃ f, a.push inst none sources = { a with f } ∧ _ :=
    h.push hlength hsources (fun cmp hcmp => absurd hcmp (hcompare cmp)) hterm
      (fun f ids _ _ => ⟨hphi, hload, hstore, fun _ _ hd => (by cases hd),
        fun _ _ _ hd => (by cases hd)⟩) fun _ hd => by cases hd
  rw [step, heq]
  refine ⟨hs, hgrows, .inl rfl, fun g hg => ?_⟩
  obtain ⟨⟨id, hrest, hstmt⟩, hids⟩ := hall g _ hg
  rw [hrest]
  exact .perform hterm hphi hstmt hids .nil

theorem Sound.assign {r : IR.GuestReg} (hr : r.Valid) (hv : v.Has mode types (registerTy mode r)) :
    Assembles mode pending a [.assign r (registerTy mode r) v]
      (a.step (.assign r (registerTy mode r) v)) types := by
  obtain ⟨d, f₁, heq₁, hs₁, hd⟩ := h.operand (v := .reg r (registerTy mode r)) ⟨hr, rfl⟩
  have hlt := hd.lt d (.head _)
  obtain ⟨hkind, hty⟩ : Denotes f₁.program a.temps (.reg r (registerTy mode r)) d := by
    cases hd.denotes with
    | cons hden _ => exact hden
  have hresult : Result f₁ (some d) := by
    rintro _ ⟨⟩
    exact ⟨hlt, .inr ⟨r, hkind⟩⟩
  have hadmissible : ∀ f ids, f₁.Extends f → List.Forall₂ (Denotes f.program a.temps) [v] ids →
      f.program.Admissible ⟨.copy, some d, ids⟩ := by
    intro f ids hext hids
    refine ⟨(by simp), (by simp), (by simp), fun _ _ _ _ => ⟨rfl, by simp⟩, fun _ e o he ho => ?_⟩
    obtain rfl := Option.some.inj he
    cases hids with
    | cons hden hnil =>
      obtain rfl := Option.some.inj ho
      rw [hden.ty_eq, hv.ty_eq, hext.ty_eq hlt, hty]
  obtain ⟨f, heq, hs, hgrows, ids, hall⟩ : ∃ f,
      Assembly.push { a with f := f₁ } .copy (some d) [v] = { a with f } ∧ _ :=
    hs₁.push (by simp) (by simpa using hv.known) (fun _ hcmp => by cases hcmp) rfl hadmissible
      hresult
  rw [step, heq₁]
  dsimp only
  rw [heq]
  refine ⟨hs, (Function.Grows.of_extends hd.grows _).trans hgrows fun _ hb _ => hb, .inl rfl,
    fun g hg => ?_⟩
  obtain ⟨⟨id, hrest, hstmt⟩, hids⟩ := hall g _ hg
  rw [rest_congr (congrFun hd.grows.code_eq a.block)] at hrest
  rw [hrest]
  cases hids with
  | cons ho hnil =>
    cases hnil
    have hlt' := hlt.trans_le hgrows.operands
    exact .assign hstmt (((hg.kind d hlt').trans (hgrows.kind d hlt)).trans hkind) ho .nil

/-- The block ends by leaving to an address. -/
theorem Sound.leave (hterm : inst.isTerminator = true) (htargets : inst.targets = [])
    (hv : v.Known mode types) :
    ∃ o f, a.close inst [v] = ⟨f, a.block, true, a.temps⟩ ∧
      Terminates mode a types pending inst [o] f ∧
      ∀ g unfinished, f.Grows unfinished g → Denotes g.program a.temps v o :=
  h.closeOne hterm hv (by simp [htargets]) (by simp [htargets])

theorem Sound.haltCheck (resume : UInt64) :
    Assembles mode pending a [.haltCheck resume] (a.step (.haltCheck resume)) types := by
  obtain ⟨d, k, f₁, heq₁, hs₁, hgrows₁, ⟨ids, hload⟩, hnew, hlt, hkind, hty⟩ :
      ∃ d k f, a.pushLocal (.loadContext .running) .i32 [] = (d, { a with f }) ∧ _ :=
    h.pushLocal (by simp) (by simp) (by simp) rfl (by simp) (by simp) .i32
  -- the branch on the flag that was loaded, as on one more result of the instruction
  have hflag : List.Forall₂ (Denotes f₁.addBlock.2.addBlock.2.program (a.temps ++ [d]))
      [.temp a.temps.length .i32] [d] := by
    exact .cons ⟨getElem?_concat_length, ⟨k, hkind⟩, hty⟩ .nil
  have haccepts : Draft.Accepts (mode = .a32) f₁.addBlock.2.addBlock.2 a.block
      (.branchIf ⟨f₁.blocks.size + 1⟩ ⟨f₁.blocks.size⟩) none [d] := by
    refine hs₁.newBlocks.1.accepts hflag (forall_mem_singleton.mpr hlt) (by simp) (by simp)
      ⟨by simp, by simp, by simp, by simp, by simp⟩ (by simp) (by simp) (fun t ht => ?_)
      (.inr fun t ht => ?_)
    all_goals
      rw [mem_targets_branchIf] at ht
      rcases ht with rfl | rfl
    · simp
    · simp
    · exact hs₁.newBlocks.2.2
    · exact hs₁.newBlocks.2.1
  have hfork := (hs₁.newBlocks.1.terminate haccepts rfl).fork hs₁ fun t =>
    mem_targets_branchIf.trans or_comm
  have hfork' := hfork.init
  have hs := hs₁.init
  obtain ⟨o, f₃, heq₃, hend, ho⟩ :
      ∃ o f, Assembly.close _ .exit [.const resume .i64] = ⟨f, _, _, _⟩ ∧ _ :=
    (hfork'.sound_first hs).leave rfl rfl trivial
  have hlast := hfork'.sound_second hs hend rfl
  have heq : a.step (.haltCheck resume) = ⟨f₃, ⟨f₁.blocks.size + 1⟩, false, a.temps⟩ := by
    rw [step, Assembly.haltCheck, heq₁]
    dsimp only [Assembly.newBlock]
    rw [fst_addBlock_addBlock]
    exact congrArg (Assembly.switchTo · ⟨f₁.blocks.size + 1⟩) heq₃
  -- what the function has grown into when the second block is finished
  have hgrows₂ : ∀ g, f₃.Grows (⟨f₁.blocks.size + 1⟩ :: pending) g → Function.Grows _ _ g :=
    fun g hg => hend.grows.trans hg fun _ hb _ => .tail _ hb
  have hgrows₃ : f₁.Grows (a.block :: pending) f₃ :=
    hfork.grows.trans hend.grows fun b hb hlt => .tail _ (mem_of_lt hb hlt)
  rw [heq]
  refine ⟨hlast, hgrows₁.trans hgrows₃ fun _ hb _ => hb, .inr ?_, fun g hg => ?_⟩
  · exact hgrows₁.blocks.trans (Nat.le_succ _)
  · have hgrow₁ : f₁.Grows (a.block :: pending) g := hgrows₃.trans hg fun b hb hlt =>
      .tail _ (mem_of_lt (.tail _ hb) hlt)
    obtain ⟨⟨i, hi, hload⟩, hids⟩ := hload g _ hgrow₁
    cases hids
    obtain ⟨j, hj, hbranch⟩ := hfork'.rest g _ (hgrows₂ g hg) hs.not_mem_new
    obtain ⟨e, he, hexit⟩ := hend.rest g _ hg (hfork'.sound_first hs).not_mem
    rw [rest_eq_code (hfork.fresh _ (.head _)).code] at he
    have hcode : f₃.program.code ⟨f₁.blocks.size + 1⟩ = [] :=
      (hend.fresh _ (.head _) (by simp [targets])).code
    rw [hi, hj, rest_eq_code hcode]
    exact .haltCheck hload ((hgrow₁.kind d hlt).trans hkind) ((hgrow₁.ty d hlt).trans hty) hnew
      hbranch he hexit (ho g _ hg) .nil

theorem Sound.dispatch (hv : v.Known mode types) (rest : List Step) :
    Finishes mode pending a (.dispatch v :: rest) (a.step (.dispatch v)) := by
  obtain ⟨o, f, heq, hend, ho⟩ : ∃ o f, a.close .dispatch [v] = ⟨f, a.block, true, a.temps⟩ ∧ _ :=
    h.leave rfl rfl hv
  rw [step, heq]
  refine ⟨⟨hend.draft, fun b hb => hend.fresh b hb (by simp [targets]), rfl⟩,
    hend.grows, fun g hg => ?_⟩
  obtain ⟨id, hid, hstmt⟩ := hend.rest g _ hg h.not_mem
  rw [hid]
  exact .dispatch hstmt (ho g _ hg)

theorem Sound.branchOn (hv : v.Known mode types) (target next : UInt64) (rest : List Step) :
    Finishes mode pending a (.branchOn v target next :: rest)
      (a.step (.branchOn v target next)) := by
  obtain ⟨o, f₁, heq₁, hfork, ho⟩ := h.branchNew hv
  obtain ⟨y, f₂, heq₂, hend₂, hy⟩ :
      ∃ o f, Assembly.close _ .dispatch [.const target .i64] = ⟨f, _, _, _⟩ ∧ _ :=
    (hfork.sound_first h).leave rfl rfl trivial
  have hlast := hfork.sound_second h hend₂ rfl
  obtain ⟨n, f₃, heq₃, hend₃, hn⟩ :
      ∃ o f, Assembly.close _ .dispatch [.const next .i64] = ⟨f, _, _, _⟩ ∧ _ :=
    hlast.leave rfl rfl trivial
  have heq : a.step (.branchOn v target next) = ⟨f₃, ⟨a.f.blocks.size + 1⟩, true, a.temps⟩ := by
    rw [step]
    dsimp only [Assembly.newBlock]
    rw [fst_addBlock_addBlock]
    exact (congrArg (fun a : Assembly => ((a.switchTo ⟨_⟩).dispatchTo target |>.switchTo
      ⟨_⟩).dispatchTo next) heq₁).trans ((congrArg (fun a : Assembly =>
        (a.switchTo ⟨_⟩).dispatchTo next) heq₂).trans heq₃)
  have hgrows₂ := hend₂.grows.trans hend₃.grows fun _ hb _ => .tail _ hb
  rw [heq]
  refine ⟨⟨hend₃.draft, fun b hb => hend₃.fresh b hb (by simp [targets]), rfl⟩,
    hfork.grows.trans hgrows₂ fun b hb hlt => .tail _ (mem_of_lt hb hlt),
    fun g hg => ?_⟩
  have hgrow₂ := hend₃.grows.trans hg fun _ hb _ => .tail _ hb
  have hgrow₁ := hend₂.grows.trans hgrow₂ fun _ hb _ => .tail _ hb
  obtain ⟨id, hid, hbranch⟩ := hfork.rest g _ hgrow₁ h.not_mem_new
  obtain ⟨i, hi, htarget⟩ := hend₂.rest g _ hgrow₂ (hfork.sound_first h).not_mem
  obtain ⟨j, hj, hnext⟩ := hend₃.rest g _ hg hlast.not_mem
  rw [rest_eq_code (hfork.fresh _ (.head _)).code] at hi
  rw [rest_eq_code (hend₂.empty _ (.head _))] at hj
  rw [hid]
  exact .branchOn hbranch (ho g _ hgrow₁) hi htarget (hy g _ hgrow₂) hj hnext (hn g _ hg)

end Step

/-- A step that does not end the instruction comes before others. -/
theorem Assembled.cons {s : Step} {rest : List Step} (hs : s.isFinal = false)
    (hstep : Assembles mode pending a [s] (a.step s) types)
    (hrest : Assembled mode pending (a.step s) rest types') :
    Assembled mode pending a (s :: rest) types' := by
  have heq : a.steps (s :: rest) = (a.step s).steps rest := by simp [Assembly.steps, hs]
  unfold Assembled
  rw [heq]
  rcases hrest with hrest | ⟨⟨s', hs', hfinal⟩, hrest⟩
  · exact .inl (hstep.trans hrest)
  · exact .inr ⟨⟨s', .tail _ hs', hfinal⟩, hstep.finish hrest⟩

theorem Sound.steps {pc : UInt64} {part : Part} {steps : List Step}
    (h : a.Sound mode types pending) (hsteps : Proper mode pc part types steps types') :
    Assembled mode pending a steps types' := by
  induction hsteps generalizing a with
  | nil => exact .inl (.refl h)
  | mention hv _ ih =>
    have hstep := h.mention hv
    exact .cons rfl hstep (ih hstep.sound)
  | @compute _ _ _ _ inst ty _ hinst hlength hsources hcompare _ ih =>
    obtain ⟨hvalue, hcopy, hload⟩ := hasValue_of_isComputation hinst
    have hstep := h.compute inst ty hvalue hcopy hload hlength hsources hcompare
    exact .cons rfl hstep (ih hstep.sound)
  | @load _ _ _ size ty _ haddress _ ih =>
    have hload := h.compute (.load size) ty rfl (by simp) (by simp) (by simp)
      (forall_mem_singleton.mpr haddress) (by simp)
    have hcheck := hload.sound.haltCheck pc
    exact .cons rfl hload (.cons rfl hcheck (ih hcheck.sound))
  | @store _ _ _ size _ _ haddress hvalue _ ih =>
    have hstore := h.perform (.store size) rfl (by simp) (by simp) (by simp) (by simp)
      (by simp) (forall_mem_cons.mpr ⟨haddress, forall_mem_singleton.mpr hvalue⟩)
    have hcheck := hstore.sound.haltCheck pc
    exact .cons rfl hstore (.cons rfl hcheck (ih hcheck.sound))
  | assign hr hv _ ih =>
    have hstep := h.assign hr hv
    exact .cons rfl hstep (ih hstep.sound)
  | @perform _ _ _ inst _ hinst hlength hsources _ ih =>
    obtain ⟨hterm, hphi, hload, hstore, hcompare⟩ := not_phi_of_isUpdate hinst
    have hstep := h.perform inst hterm hphi hload hstore hcompare hlength hsources
    exact .cons rfl hstep (ih hstep.sound)
  | haltCheck resume _ ih =>
    have hstep := h.haltCheck resume
    exact .cons rfl hstep (ih hstep.sound)
  | dispatch hv _ _ => exact .inr ⟨⟨_, .head _, rfl⟩, h.dispatch hv _⟩
  | branchOn hv target next _ _ =>
    exact .inr ⟨⟨_, .head _, rfl⟩, h.branchOn hv target next _⟩

end Assembly

end Dynarec.Lift
