import Dynarec.IR.Optimize
import Dynarec.Proofs.IR.PhiHeads

/-!
# The optimizer

Every change a pass makes collapses a phi, forwards an operand or drops an unused operation. So all
passes, and all rounds of them, keep the behaviour and static single assignment form. Unless all
rounds are used up, a function comes to rest, and then phis are in front of everything else.
-/

namespace Dynarec.IR

open List Program

namespace Function

variable {f g : Function} {x y : OperandId} {b : BlockId} {id : OpId}

/-! ### Replacing all uses -/

theorem getElem?_foldl_set {α : Type} (is : List Nat) (l : List α) (a : α) (j : Nat) :
    (is.foldl (fun l i => l.set i a) l)[j]? = if j ∈ is then l[j]?.map fun _ => a else l[j]? := by
  induction is generalizing l with
  | nil => simp
  | cons i is ih =>
    rw [foldl_cons, ih]
    by_cases hij : i = j
    · subst hij
      by_cases hlt : i < l.length
      · by_cases hi : i ∈ is <;> simp [hlt]
      · simp [hlt]
    · have hji : j ≠ i := fun h => hij h.symm
      simp [hij, hji]

theorem foldl_setSource (h : f.WellFormed) (hid : id ∈ f.program.code b)
    (hy : y.index < f.operands.size) {is : List Nat}
    (his : ∀ i ∈ is, i < (f.program.stmt id).sources.length)
    (hg : g = is.foldl (fun f i => f.setSource id i y) f) :
    g.WellFormed ∧ SamePools f g ∧ g.program = f.program.withStmt id { f.program.stmt id with
      sources := is.foldl (fun l i => l.set i y) (f.program.stmt id).sources } := by
  induction is generalizing f with
  | nil =>
    subst hg
    refine ⟨h, .refl _, ?_⟩
    exact Program.ext rfl (Function.update_eq_self id _).symm rfl rfl rfl
  | cons i is ih =>
    have hi := his i (.head _)
    have hp := h.program_setSource hi y
    have hstmt : (f.setSource id i y).program.stmt id =
        { f.program.stmt id with sources := (f.program.stmt id).sources.set i y } := by
      rw [hp, stmt_withStmt, if_pos rfl]
    have hpools := (restates_setSource hi y).pools
    obtain ⟨hw, hpools', hprog⟩ := ih (h.setSource hid hi hy)
      (by rw [hp]; exact hid) (by rw [hpools.operands]; exact hy) (by
        intro j hj
        rw [hstmt, length_set]
        exact his j (.tail _ hj)) hg
    refine ⟨hw, hpools.trans hpools', ?_⟩
    rw [hprog, hstmt, hp]
    exact Program.ext rfl (Function.update_idem ..) rfl rfl rfl

structure Redirected (f : Function) (x y : OperandId) (users : List OpId) (g : Function) :
    Prop where
  wf : g.WellFormed
  pools : SamePools f g
  code : g.program.code = f.program.code
  user : ∀ id ∈ users, g.program.stmt id = (f.program.stmt id).subst x y
  other : ∀ id, id ∉ users → g.program.stmt id = f.program.stmt id

theorem mem_slotsOf {i : Nat} : i ∈ f.slotsOf id x ↔ (f.program.stmt id).sources[i]? = some x := by
  change _ ↔ (f.operation id).sources[i]? = some x
  rw [slotsOf, mem_filter, mem_range, beq_iff_eq]
  refine ⟨fun h => h.2, fun h => ⟨?_, h⟩⟩
  have hlt := (List.getElem?_eq_some_iff.mp h).1
  rw [Operation.sources, length_take] at hlt
  omega

/-- One user is redirected in all its slots. -/
theorem Redirected.step {users : List OpId} (h : Redirected f x y users g)
    (hid : id ∈ f.program.code b) (hnot : id ∉ users) (hy : y.index < f.operands.size) :
    Redirected f x y (users ++ [id])
      ((g.slotsOf id x).foldl (fun f i => f.setSource id i y) g) := by
  obtain ⟨hw, hpools, hprog⟩ := foldl_setSource h.wf (h.code ▸ hid)
    (by rw [h.pools.operands]; exact hy)
    (fun i hi => (List.getElem?_eq_some_iff.mp (mem_slotsOf.mp hi)).1) rfl
  have hsubst : (g.slotsOf id x).foldl (fun l i => l.set i y) (g.program.stmt id).sources =
      ((g.program.stmt id).subst x y).sources := by
    refine ext_getElem? fun j => ?_
    rw [getElem?_foldl_set, getElem?_subst]
    simp only [mem_slotsOf]
    cases hj : (g.program.stmt id).sources[j]? with
    | none => rfl
    | some o =>
      by_cases hox : o = x
      · simp [hox]
      · simp [hox]
  rw [hsubst] at hprog
  refine ⟨hw, h.pools.trans hpools, ?_, fun e he => ?_, fun e he => ?_⟩
  · rw [hprog]
    exact h.code
  · rw [hprog, stmt_withStmt]
    rcases mem_append.mp he with he | he
    · rw [if_neg fun heq : e = id => hnot (heq ▸ he)]
      exact h.user e he
    · rw [mem_singleton.mp he, if_pos rfl, h.other id hnot]
      rfl
  · rw [mem_append, not_or, mem_singleton] at he
    rw [hprog, stmt_withStmt, if_neg he.2]
    exact h.other e he.1

/-- After replacing all uses the program reads `y` in place of `x`. -/
theorem WellFormed.replaceAllUses (h : f.WellFormed) (hy : y.index < f.operands.size) :
    (f.replaceAllUses x y).WellFormed ∧ SamePools f (f.replaceAllUses x y) ∧
      (f.program.subst x y).Agrees (f.replaceAllUses x y).program := by
  unfold Function.replaceAllUses
  split
  next hxy =>
    subst hxy
    rw [subst_self]
    exact ⟨h, .refl f, rfl, rfl, fun _ _ _ => rfl, fun _ _ _ _ _ => ⟨rfl, rfl⟩⟩
  next hxy =>
    have huser : ∀ id, id ∈ (f.operand x).uses ↔ ∃ b, id ∈ f.program.code b ∧
        x ∈ (f.program.stmt id).sources := by
      intro id
      rw [h.tracked.uses]
      exact ⟨fun hu => ⟨_, h.mem_code_iff.mpr ⟨hu.1, rfl⟩, hu.2⟩,
        fun ⟨b, hb, hu⟩ => ⟨h.live_of_mem hb, hu⟩⟩
    have hfold : ∀ todo done g, Redirected f x y done g → (f.operand x).uses = done ++ todo →
        Redirected f x y (f.operand x).uses (todo.foldl (fun f user =>
          (f.slotsOf user x).foldl (fun f index => f.setSource user index y) f) g) := by
      intro todo
      induction todo with
      | nil =>
        intro done g hg heq
        rw [append_nil] at heq
        rwa [heq]
      | cons id todo ih =>
        intro done g hg heq
        obtain ⟨b, hid, -⟩ := (huser id).mp (mem_of_split heq)
        have hnodup := h.tracked.nodup_uses x
        rw [heq, nodup_append] at hnodup
        refine ih (done ++ [id]) _ (hg.step hid (fun hmem => ?_) hy) (by rw [heq]; simp)
        exact hnodup.2.2 id hmem id (.head _) rfl
    have hstart : Redirected f x y [] f :=
      ⟨h, .refl f, rfl, forall_mem_nil _, fun _ _ => rfl⟩
    have hres := hfold _ [] f hstart rfl
    refine ⟨hres.wf, hres.pools, hres.code, funext hres.pools.predecessors,
      fun b id hid => ?_, fun b id hid o ho => ⟨hres.pools.kind o, hres.pools.ty o⟩⟩
    by_cases hmem : id ∈ (f.operand x).uses
    · exact hres.user id hmem
    · rw [hres.other id hmem]
      have hx : x ∉ (f.program.stmt id).sources := fun hx => hmem ((huser id).mpr ⟨b, hid, hx⟩)
      have hmap : ((f.program.stmt id).sources.map fun o => if o = x then y else o) =
          (f.program.stmt id).sources := by
        conv_rhs => rw [← map_id (f.program.stmt id).sources]
        exact map_congr_left fun o ho => if_neg fun heq : o = x => hx (heq ▸ ho)
      change f.program.stmt id = Stmt.subst _ x y
      rw [Stmt.subst, hmap]

/-! ### One change -/

/-- Removing an operation erases it from the program. -/
theorem WellFormed.program_remove_eq (h : f.WellFormed) (hid : id ∈ f.program.code b) :
    (f.remove id).WellFormed ∧ (f.remove id).program = f.program.erase id := by
  obtain ⟨before, after, hcode⟩ := append_of_mem hid
  refine ⟨h.remove hcode, ?_⟩
  rw [h.program_remove hcode]
  refine Program.ext (funext fun c => ?_) rfl rfl rfl rfl
  rw [← h.program_remove hcode]
  exact h.layout.blockOperations_remove (h.live_of_mem hid) c

/-- `g` is a well-formed function in static single assignment form that behaves like `f`, of which
it is what is left. -/
structure Optimizes (f g : Function) : Prop where
  wf : g.WellFormed
  form : g.program.SingleAssignment
  same : f.program.SameBehaviour g.program
  reduces : f.program.Reduces g.program
  blocks : g.blocks.size = f.blocks.size

namespace Optimizes

theorem refl (h : f.WellFormed) (hs : f.program.SingleAssignment) : Optimizes f f :=
  ⟨h, hs, .refl _, .refl _, rfl⟩

theorem trans {k : Function} (h : Optimizes f g) (h' : Optimizes g k) : Optimizes f k :=
  ⟨h'.wf, h'.form, h.same.trans h'.same, h.reduces.trans h'.reduces, h'.blocks.trans h.blocks⟩

/-- A pass is as good as each of its changes. -/
theorem foldl {change : Nat × Function → OpId → Nat × Function}
    (hchange : ∀ n (k : Function) id, k.WellFormed → k.program.SingleAssignment →
      Optimizes k (change (n, k) id).2) (h : f.WellFormed) (hs : f.program.SingleAssignment)
    (ids : List OpId) (n : Nat) : Optimizes f (ids.foldl change (n, f)).2 := by
  refine foldlRecOn ids change (b := (n, f)) (motive := fun s => Optimizes f s.2) (refl h hs)
    fun s hsome id _ => ?_
  exact hsome.trans (hchange s.1 s.2 id hsome.wf hsome.form)

end Optimizes

/-! ### Dead operations -/

theorem isDead_iff : f.isDead (f.operation id) = true ↔ (f.operation id).live = true ∧
    (f.operation id).inst.hasSideEffects = false ∧
      ∃ d, (f.operation id).dest = some d ∧ (f.operand d).uses = [] := by
  simp [isDead, Option.any_eq_true, and_assoc]

/-- Operations are removed one after the other, each of them dead when its turn comes. -/
inductive Drops : Function → List OpId → Function → Prop
  | nil (f : Function) : Drops f [] f
  | cons {f g : Function} {id : OpId} {ids : List OpId} (hdead : f.isDead (f.operation id) = true)
      (hrest : Drops (f.remove id) ids g) : Drops f (id :: ids) g

/-- Whatever its work list, a sweep drops dead operations and counts them. -/
theorem sweep_drops (fuel : Nat) (work : List OpId) (s : Nat × Function) :
    ∃ ids, (sweep fuel work s).1 = s.1 + ids.length ∧ Drops s.2 ids (sweep fuel work s).2 := by
  fun_induction sweep fuel work s with
  | case1 | case2 => exact ⟨[], rfl, .nil _⟩
  | case3 fuel id work n f op hdead g again ih =>
    obtain ⟨ids, hcount, hdrops⟩ := ih
    exact ⟨id :: ids, hcount.trans (Nat.add_right_comm n 1 ids.length), .cons hdead hdrops⟩
  | case4 fuel id work n f op hdead ih => exact ih

section Change

variable (h : f.WellFormed) (hs : f.program.SingleAssignment) {b : BlockId} {id : OpId}
  {dest : OperandId}

include h hs

/-- Forwarding an operand to the readers of the result of an operation. -/
theorem optimizes_forward (hid : id ∈ f.program.code b) (hE : f.program.Equates x y)
    (hdest : (f.program.stmt id).dest = some x)
    (hside : (f.program.stmt id).inst.hasSideEffects = false) (hy : y.index < f.operands.size)
    (hyreg : ∀ r, f.program.kind y ≠ .register r) (hty : f.program.ty y = f.program.ty x)
    (hself : x = y → ∀ c, f.program.Reachable c → id ∉ f.program.code c) :
    Optimizes f ((f.replaceAllUses x y).remove id) := by
  obtain ⟨hw, hpools, hagrees⟩ := h.replaceAllUses hy
  have hid' : id ∈ (f.replaceAllUses x y).program.code b := by
    rw [hagrees.code]
    exact hid
  obtain ⟨hw', hprog⟩ := hw.program_remove_eq hid'
  obtain ⟨hsame, hform⟩ := hE.forward hs hid hdest hside hyreg hty hself
  have herase : ((f.program.subst x y).erase id).Agrees
      ((f.replaceAllUses x y).remove id).program := by
    rw [hprog]
    exact hagrees.erase id
  have hreduces : f.program.Reduces ((f.program.subst x y).erase id) :=
    (Program.Reduces.subst f.program x y).trans (.erase (isTerminator_of_hasSideEffects hside))
  exact ⟨hw', herase.singleAssignment hform, hsame.trans (herase.sameBehaviour hform.terminated),
    hreduces.trans (.of_agrees herase),
    ((f.replaceAllUses x y).samePools_remove id).blocks.trans hpools.blocks⟩

omit h hs in
theorem onlySource?_eq_some {s : OperandId} {sources : List OperandId}
    (hsome : onlySource? dest sources = some s) :
    dest ≠ s ∧ s ∈ sources ∧ ∀ o ∈ sources, o = s ∨ o = dest := by
  unfold onlySource? at hsome
  split at hsome
  · cases hsome
  next u rest hfilter =>
    split at hsome
    next hall =>
      cases hsome
      have hmem : ∀ o, o ∈ sources.filter (· != dest) ↔ o = s ∨ o ∈ rest := by
        intro o
        rw [hfilter, mem_cons]
      obtain ⟨hs, hne⟩ := mem_filter.mp ((hmem s).mpr (.inl rfl))
      refine ⟨fun heq => by simp [heq] at hne, hs, fun o ho => ?_⟩
      by_cases hod : o = dest
      · exact .inr hod
      · rcases (hmem o).mp (mem_filter.mpr ⟨ho, by simpa using hod⟩) with heq | hrest
        · exact .inl heq
        · exact .inl (by simpa using all_eq_true.mp hall o hrest)
    · cases hsome

/-- A phi with one source becomes a copy. -/
theorem optimizes_collapse (hid : id ∈ f.program.code b) (hphi : (f.program.stmt id).inst = .phi)
    (hdest : (f.program.stmt id).dest = some x)
    (hsource : onlySource? x (f.program.stmt id).sources = some y) :
    Optimizes f ((f.setInstruction id .copy).replaceSources id [y]) := by
  obtain ⟨hxy, hy, hsources⟩ := onlySource?_eq_some hsource
  obtain ⟨hw, hpools, -, hprog⟩ := h.setCopy hid (h.source_lt hid hy)
  rw [hdest] at hprog
  refine ⟨hw, ?_, ?_, ?_, hpools.blocks⟩
  · rw [hprog]
    exact hs.collapse hid hphi hdest hsources hy
  · rw [hprog]
    exact .collapse hs hid hphi hdest hsources hy hxy
  · rw [hprog]
    exact .collapse hphi hdest

theorem optimizes_propagateCopy (n : Nat) (id : OpId) :
    Optimizes f (propagateCopy (n, f) id).2 := by
  unfold propagateCopy
  dsimp only
  split
  · exact .refl h hs
  next hlive =>
    have hid : id ∈ f.program.code (f.operation id).block :=
      h.mem_code_iff.mpr ⟨by simpa using hlive, rfl⟩
    split
    next dest hphi hdest =>
      split
      next source hsource => exact optimizes_collapse h hs hid hphi hdest hsource
      · exact .refl h hs
    next dest hcopy hdest =>
      split
      next source hsource =>
        have hmem := mem_of_getElem? hsource
        split
        · obtain ⟨done, rest, hcode⟩ := append_of_mem hid
          have hinst : (f.program.stmt id).inst = .copy := hcopy
          refine optimizes_forward h hs hid (.of_copy hs hcode hinst hdest hsource) hdest
            (by rw [hinst]; rfl) (h.source_lt hid hmem) (hs.source _ id hid source hmem)
            ((hs.typed _ id hid).copy hinst dest source hdest hsource) ?_
          rintro rfl c hc hidc
          exact hs.not_self hidc (by rw [hinst]; exact Instruction.noConfusion) hdest hmem hc
        · exact .refl h hs
      · exact .refl h hs
    · exact .refl h hs

omit h hs in
theorem constantResult?_eq_some {op : Operation} {value : UInt64} {ty : Ty}
    (hsome : f.constantResult? op = some (dest, value, ty)) :
    op.live = true ∧ op.dest = some dest ∧ ty = (f.operand dest).ty ∧
      ∃ values, op.sources.mapM (fun s => (f.operand s).constant?) = some values ∧
        op.inst.evaluate? ty (match op.source? 0 with
          | some s => (f.operand s).ty
          | none => .i64) values = some value := by
  simp only [constantResult?, bind, Option.bind_eq_some_iff, guard, pure] at hsome
  obtain ⟨⟨⟩, hguard, d, hd, -, -, values, hvalues, v, hv, heq⟩ := hsome
  have hlive : op.live = true :=
    (Bool.and_eq_true_iff.mp (Option.ite_none_right_eq_some.mp hguard).1).1
  cases heq
  exact ⟨hlive, hd, rfl, values, hvalues, hv⟩

omit h hs in
/-- Constant operands as the program sees them. -/
theorem WellFormed.constantSources (h : f.WellFormed) {s : Stmt} {values : List UInt64}
    (hlt : ∀ o ∈ s.sources, o.index < f.operands.size)
    (hvalues : s.sources.mapM (fun s => (f.operand s).constant?) = some values) :
    f.program.ConstantSources s values := by
  unfold Program.ConstantSources
  generalize s.sources = sources at hlt hvalues
  induction sources generalizing values with
  | nil =>
    cases hvalues
    exact .nil
  | cons o sources ih =>
    rw [mapM_cons] at hvalues
    simp only [bind, Option.bind_eq_some_iff, pure, Option.some.injEq] at hvalues
    obtain ⟨v, hv, rest, hrest, rfl⟩ := hvalues
    have ho := hlt o mem_cons_self
    have hkind : f.program.kind o = .constant v := by
      unfold Operand.constant? at hv
      split at hv
      next value hvalue =>
        cases hv
        exact hvalue
      · cases hv
    exact .cons ⟨hkind, h.interned.constant_fits o v ho hkind⟩
      (ih (fun u hu => hlt u (mem_cons_of_mem _ hu)) hrest)

omit hs in
theorem agrees_of_extends (hg : Extends f g) : f.program.Agrees g.program where
  code := hg.code_eq
  preds := hg.preds_eq
  stmt _ _ _ := by rw [hg.stmt_eq]
  operand b id hid o ho := by
    have hlt := h.operand_lt hid ho
    exact ⟨hg.kind_eq hlt, hg.ty_eq hlt⟩

theorem optimizes_foldConstant (n : Nat) (id : OpId) : Optimizes f (foldConstant (n, f) id).2 := by
  unfold foldConstant
  dsimp only
  split
  next dest value ty hresult =>
    obtain ⟨hlive, hdest, rfl, values, hvalues, hvalue⟩ := constantResult?_eq_some hresult
    have hid : id ∈ f.program.code (f.operation id).block := h.mem_code_iff.mpr ⟨hlive, rfl⟩
    obtain ⟨hw, hext, -, hlt, hkind, hty⟩ := h.constant value (f.operand dest).ty
    generalize f.constant value (f.operand dest).ty = res at hw hext hlt hkind hty ⊢
    obtain ⟨constant, g⟩ := res
    have hagrees := agrees_of_extends h hext
    have hsg := hagrees.singleAssignment hs
    have hstmt : g.program.stmt id = f.program.stmt id := by rw [hext.stmt_eq]
    have hidg : id ∈ g.program.code (f.operation id).block := by
      rw [hagrees.code]
      exact hid
    have hdestg : (g.program.stmt id).dest = some dest := by
      rw [hstmt]
      exact hdest
    have htyg : g.program.ty dest = (f.operand dest).ty :=
      (hagrees.operand _ id hid dest (.inr hdest)).2
    have hfits : value &&& (f.operand dest).ty.mask = value := Instruction.evaluate?_fits hvalue
    have hsources : g.program.ConstantSources (g.program.stmt id) values := by
      rw [hstmt]
      have hc := h.constantSources (fun o ho => h.source_lt hid ho) hvalues
      refine forall₂_imp_mem hc fun o ho v _ hv => ?_
      obtain ⟨hk, ht⟩ := hagrees.operand _ id hid o (.inl ho)
      rw [hk, ht]
      exact hv
    obtain ⟨done, rest, hcode⟩ := append_of_mem hidg
    have hE : g.program.Equates dest constant := by
      refine .of_constant hsg hcode hdestg hsources ?_ (by rw [hkind, hfits])
      rw [htyg, hstmt, hagrees.sourceTy hid]
      exact hvalue
    have hside : (g.program.stmt id).inst.hasSideEffects = false := by
      rw [hstmt]
      have hsome : (f.program.stmt id).inst.evaluate? _ _ _ = some value := hvalue
      revert hsome
      cases (f.program.stmt id).inst <;>
        simp [Instruction.evaluate?, Instruction.hasSideEffects, Instruction.isTerminator]
    have hforward := optimizes_forward hw hsg hidg hE hdestg hside hlt
      (fun r hr => by rw [hkind] at hr; cases hr) (hty.trans htyg.symm) (by
        rintro rfl
        obtain ⟨j, hj⟩ := hsg.dest _ id hidg dest hdestg
        rw [hkind] at hj
        cases hj)
    have hgrown : Optimizes f g :=
      ⟨hw, hsg, hagrees.sameBehaviour hs.terminated, .of_agrees hagrees, by rw [hext.blocks]⟩
    exact hgrown.trans hforward
  · exact .refl h hs

/-- Dropping a dead operation. -/
theorem optimizes_remove (hdead : f.isDead (f.operation id) = true) :
    Optimizes f (f.remove id) := by
  obtain ⟨hlive, hside, d, hd, huses⟩ := isDead_iff.mp hdead
  have hid : id ∈ f.program.code (f.operation id).block := h.mem_code_iff.mpr ⟨hlive, rfl⟩
  have hdest : (f.program.stmt id).dest = some d := hd
  have hunused : ∀ b, f.program.Reachable b → ∀ e ∈ f.program.code b,
      ∀ o ∈ (f.program.stmt e).sources, ¬(f.program.stmt id).Writes o := by
    intro b _ e he o ho heq
    have hod : o = d := Option.some.inj (heq.symm.trans hdest)
    have hmem : e ∈ (f.operand d).uses := (h.tracked.uses d e).mpr ⟨h.live_of_mem he, hod ▸ ho⟩
    rw [huses] at hmem
    cases hmem
  obtain ⟨hw, hprog⟩ := h.program_remove_eq hid
  refine ⟨hw, ?_, ?_, ?_, (f.samePools_remove id).blocks⟩
  · rw [hprog]
    exact hs.erase (isTerminator_of_hasSideEffects hside) (.inl hunused)
  · rw [hprog]
    refine .erase hs.terminated hside (fun u r hu hr => ?_) hunused
    obtain ⟨j, hj⟩ := hs.dest _ id hid u hu
    rw [hr] at hj
    cases hj
  · rw [hprog]
    exact .erase (isTerminator_of_hasSideEffects hside)

/-! ### Passes -/

theorem optimizes_propagateCopies : Optimizes f f.propagateCopies.2 :=
  .foldl (fun n _ id hk hks => optimizes_propagateCopy hk hks n id) h hs _ 0

theorem optimizes_foldConstants : Optimizes f f.foldConstants.2 :=
  .foldl (fun n _ id hk hks => optimizes_foldConstant hk hks n id) h hs _ 0

theorem optimizes_drops {ids : List OpId} (hdrops : Drops f ids g) : Optimizes f g := by
  induction hdrops with
  | nil => exact .refl h hs
  | cons hdead _ ih =>
    have hremove := optimizes_remove h hs hdead
    exact hremove.trans (ih hremove.wf hremove.form)

theorem optimizes_eliminateDeadCode : Optimizes f f.eliminateDeadCode.2 := by
  obtain ⟨ids, -, hdrops⟩ := sweep_drops f.sweepBound f.allOperations.reverse (0, f)
  exact optimizes_drops h hs hdrops

theorem optimizes_rounds (rounds : Nat) (s : OptimizerStats) :
    Optimizes f (optimizeRounds rounds (s, f)).2 := by
  induction rounds generalizing f s with
  | zero => exact .refl h hs
  | succ rounds ih =>
    rw [optimizeRounds]
    have hcopies := optimizes_propagateCopies h hs
    generalize f.propagateCopies = copies at hcopies ⊢
    have hfolded := hcopies.trans (optimizes_foldConstants hcopies.wf hcopies.form)
    generalize hfold : copies.2.foldConstants = folded at hfolded
    have hround := hfolded.trans (optimizes_eliminateDeadCode hfolded.wf hfolded.form)
    generalize hremove : folded.2.eliminateDeadCode = removed at hround
    simp only [hfold, hremove]
    split
    · exact hround
    · exact hround.trans (ih hround.wf hround.form _)

theorem optimizes_optimize (tier : Tier) : Optimizes f (f.optimize tier).2 := by
  cases tier with
  | fast => exact optimizes_eliminateDeadCode h hs
  | optimized => exact optimizes_rounds h hs _ _

end Change

end Function

/-! ### Environments -/

/-- What an environment sees of an event when it cannot tell whether counters are read. -/
def Event.lasting : Event → Option Event
  | request q c => if q.isCounter then none else some (request q c)
  | put field v => some (put field v)

def Trace.Same (w w' : Trace) : Prop :=
  w.events.filterMap Event.lasting = w'.events.filterMap Event.lasting ∧ w.context = w'.context

/-- An environment that observes no reads of counters. -/
theorem Environment.counterBlind (E : Environment) {observe : Event → Option Event}
    (hobserve : ∀ q c, q.isCounter = true → observe (.request q c) = none) :
    (E.host observe).CounterBlind fun w w' =>
      w.events.filterMap observe = w'.events.filterMap observe ∧ w.context = w'.context where
  equivalence := {
    refl := fun _ => ⟨rfl, rfl⟩
    symm := fun h => ⟨h.1.symm, h.2.symm⟩
    trans := fun h h' => ⟨h.1.trans h'.1, h.2.trans h'.2⟩ }
  context h := h.2
  put {w w'} field v h := by
    refine ⟨?_, congrArg (fun c : Context => c.put field v) h.2⟩
    simp only [host, filterMap_cons, h.1]
  answer {w w'} site q h := by
    obtain ⟨hevents, hcontext⟩ := h
    have hseen : (Event.request q w.context :: w.events).filterMap observe =
        (Event.request q w'.context :: w'.events).filterMap observe := by
      simp only [filterMap_cons, hevents, hcontext]
    refine ⟨?_, hseen, ?_⟩
    · simp only [host, hseen]
    · simp only [host, hseen]
      rw [hcontext]
  counter {q} site w hq := by
    have hsync : q.synchronizes = false := by
      cases q <;> first | rfl | cases hq
    refine ⟨?_, ?_⟩
    · simp [host, hobserve q _ hq]
    · simp [host, Request.allow, hq, hsync]

theorem Environment.counterBlind_lasting (E : Environment) :
    (E.host Event.lasting).CounterBlind Trace.Same :=
  E.counterBlind fun q c hq => by simp [Event.lasting, hq]

end Dynarec.IR
