import Dynarec.Proofs.IR.Behaviour
import Dynarec.Proofs.IR.Registers

/-!
# Rewriting in static single assignment form

A copy, an operation over constants and a phi with one source all say that their result equals some
other operand. Each of them can be forwarded to the readers, which keeps the behaviour and the form.
-/

namespace Dynarec.IR.Program

open List Program Instruction

variable {p q : Program} {x y : OperandId} {b : BlockId} {id : OpId} {done rest : List OpId}
  {ω : Type} {v : UInt64} {s : Stmt} {values : List UInt64}

/-! ### Programs with the same operations -/

/-- The programs have the same operations in all blocks, over the same operands. -/
structure Agrees (p q : Program) : Prop where
  code : q.code = p.code
  preds : q.preds = p.preds
  stmt : ∀ b, ∀ id ∈ p.code b, q.stmt id = p.stmt id
  operand : ∀ b, ∀ id ∈ p.code b, ∀ o, o ∈ (p.stmt id).sources ∨ (p.stmt id).dest = some o →
    q.kind o = p.kind o ∧ q.ty o = p.ty o

namespace Agrees

section

variable (h : p.Agrees q)

include h

theorem alike : p.Alike q where
  code b _ := by rw [h.code]
  stmt b _ := h.stmt b
  operand b _ := h.operand b

theorem sameBehaviour (hterm : ∀ b, p.Reachable b → p.Terminated (p.code b)) : p.SameBehaviour q :=
  .of_run_eq fun _ w n => h.alike.run_eq hterm (fun _ _ => .inl (by rw [h.preds])) w n

theorem successors (b : BlockId) : q.successors b = p.successors b :=
  successors_congr (congrFun h.code b) (h.stmt b)

theorem definedAt (hdone : ∀ e ∈ done, e ∈ p.code b) (hx : p.DefinedAt b done x) :
    q.DefinedAt b done x := by
  rcases hx with ⟨e, he, hdest⟩ | hx
  · exact .inl ⟨e, he, by rw [h.stmt b e (hdone e he)]; exact hdest⟩
  · refine .inr (hx.mono (fun c d _ hd => h.successors c ▸ hd) fun c _ hc => ?_)
    obtain ⟨e, he, hdest⟩ := hc
    exact ⟨e, h.code ▸ he, by rw [h.stmt c e he]; exact hdest⟩

theorem sourceTy (hid : id ∈ p.code b) : q.sourceTy (p.stmt id) = p.sourceTy (p.stmt id) :=
  sourceTy_map (map_id' _).symm fun o ho => (h.operand b id hid o (.inl ho)).2

theorem versioned (hs : p.Versioned) : q.Versioned := by
  have hcode : ∀ b, q.code b = p.code b := congrFun h.code
  have hpreds : ∀ b, q.preds b = p.preds b := congrFun h.preds
  have hdest : ∀ b, ∀ id ∈ p.code b, ∀ d, (p.stmt id).dest = some d → q.kind d = p.kind d :=
    fun b id hid d hd => (h.operand b id hid d (.inr hd)).1
  refine ⟨fun b hb => ?_, fun b c hb hc => ?_, ?_, ?_, ?_⟩
  · exact h.alike.terminated (h.alike.reachable.mp hb) (hs.terminated b (h.alike.reachable.mp hb))
  · rw [hpreds]
    exact hs.preds b c (h.alike.reachable.mp hb) (h.successors b ▸ hc)
  · intro b id hid
    rw [hcode] at hid
    rw [h.stmt b id hid, hpreds]
    exact hs.arity b id hid
  · intro b id hid d hd
    rw [hcode] at hid
    rw [h.stmt b id hid] at hd
    rw [hdest b id hid d hd]
    exact hs.dest b id hid d hd
  · intro b c l r l' r' e e' v i hl hl' he he' hv
    rw [hcode] at hl hl'
    have hmem := mem_of_split hl
    rw [h.stmt b e hmem] at he
    rw [h.stmt c e' (mem_of_split hl')] at he'
    rw [hdest b e hmem v he] at hv
    exact hs.once.place hv hl hl' he he'

theorem singleAssignment (hs : p.SingleAssignment) : q.SingleAssignment := by
  have hcode : ∀ b, q.code b = p.code b := congrFun h.code
  have hpreds : ∀ b, q.preds b = p.preds b := congrFun h.preds
  have hv := h.versioned hs.versioned
  refine ⟨hv.terminated, ?_, hv.preds, hv.arity, hv.dest, ?_, ?_, hv.once, ?_, ?_⟩
  · intro id hid
    rw [hcode] at hid
    rw [h.stmt _ id hid]
    exact hs.entry id hid
  · intro b id hid o ho
    rw [hcode] at hid
    rw [h.stmt b id hid] at ho
    rw [(h.operand b id hid o (.inl ho)).1]
    exact hs.source b id hid o ho
  · intro b id hid
    rw [hcode] at hid
    have ht := hs.typed b id hid
    have hty := fun o ho => (h.operand b id hid o ho).2
    rw [h.stmt b id hid]
    refine ⟨fun hcopy d o hd ho => ?_, fun hphi d hd o ho => ?_, fun cmp hcmp o ho => ?_⟩
    · rw [hty o (.inl (mem_of_getElem? ho)), hty d (.inr hd)]
      exact ht.copy hcopy d o hd ho
    · rw [hty o (.inl ho), hty d (.inr hd)]
      exact ht.phi hphi d hd o ho
    · rw [hty o (.inl ho), h.sourceTy hid]
      exact ht.compare cmp hcmp o ho
  · intro b done e rest hl hphi o ho i hi
    rw [hcode] at hl
    have hmem := mem_of_split hl
    rw [h.stmt b e hmem] at hphi ho
    rw [(h.operand b e hmem o (.inl ho)).1] at hi
    exact h.definedAt (fun x hx => hl ▸ mem_append_left _ hx)
      (hs.use b done e rest hl hphi o ho i hi)
  · intro b hb e he hphi k o c ho hc i hi
    rw [hcode] at he
    rw [h.stmt b e he] at hphi ho
    rw [hpreds] at hc
    rw [(h.operand b e he o (.inl (mem_of_getElem? ho))).1] at hi
    rw [hcode]
    exact h.definedAt (fun x hx => hx)
      (hs.phi b (h.alike.reachable.mp hb) e he hphi k o c ho hc i hi)

theorem erase (id : OpId) : (p.erase id).Agrees (q.erase id) where
  code := by
    funext b
    change (q.code b).filter _ = (p.code b).filter _
    rw [h.code]
  preds := h.preds
  stmt b e he := h.stmt b e (mem_erase.mp he).1
  operand b e he := h.operand b e (mem_erase.mp he).1

end

end Agrees

/-! ### Operations that equate -/

theorem Equates.of_copy (hs : p.SingleAssignment) (hcode : p.code b = done ++ id :: rest)
    (hinst : (p.stmt id).inst = .copy) (hdest : (p.stmt id).dest = some x)
    (hsource : (p.stmt id).sources[0]? = some y) :
    p.Equates x y := by
  have hid := mem_of_split hcode
  obtain ⟨j, hj⟩ := hs.dest b id hid x hdest
  refine .op hcode hdest (by simp [hinst]) (by rw [hinst]; rfl) (fun host visit σ => ?_) ?_
  · simp [Program.execute, hinst, Host.perform, request?, pureValue, hdest,
      assign, hj, Program.argument, hsource]
  · intro i hi
    exact hs.use b done id rest hcode (by simp [hinst]) y (mem_of_getElem? hsource) i hi

/-- What an instruction that has a value does. -/
theorem perform_pure {host : Host ω} {site : Site} {inst : Instruction} {ty sourceTy : Ty}
    {a b c : UInt64} {w : ω}
    (h : inst.evaluate? ty sourceTy (inst.arguments sourceTy a b c) = some v) :
    host.perform site inst ty sourceTy a b c w = (some v, w) := by
  have hrequest : inst.request? a b c = none := by
    revert h
    cases inst <;> simp [evaluate?, request?]
  have hvalue : inst.pureValue ty sourceTy a b c = v := by
    unfold pureValue
    split
    · cases h
    · rw [h]
      rfl
  unfold Host.perform
  rw [hrequest]
  split
  next hsome => cases hsome
  · split
    · cases h
    · cases h
    · rw [hvalue]

/-- The sources of a statement are constants that fit their types. -/
def ConstantSources (p : Program) (s : Stmt) (values : List UInt64) : Prop :=
  List.Forall₂ (fun o v => p.kind o = .constant v ∧ v &&& (p.ty o).mask = v) s.sources values

theorem ConstantSources.argument (h : p.ConstantSources s values) (host : Host ω) (σ : State ω)
    (i : Nat) :
    p.argument host σ s i = values.getD i 0 := by
  unfold Program.argument
  unfold ConstantSources at h
  generalize s.sources = sources at h
  induction h generalizing i with
  | nil => rfl
  | @cons o v sources values ho _ ih =>
    cases i with
    | zero => simp [read, ho.1]
    | succ i => exact ih i

/-- Constants are not changed by cutting them to the type of the first source. -/
theorem ConstantSources.evaluate? (h : p.ConstantSources s values) (ht : p.Typed s) (ty : Ty) :
    s.inst.evaluate? ty (p.sourceTy s) (s.inst.arguments (p.sourceTy s) (values.getD 0 0)
      (values.getD 1 0) (values.getD 2 0)) = s.inst.evaluate? ty (p.sourceTy s) values := by
  have hfits : ∀ i o, s.sources[i]? = some o →
      values.getD i 0 &&& (p.ty o).mask = values.getD i 0 := by
    intro i o ho
    unfold ConstantSources at h
    generalize s.sources = sources at h ho
    induction h generalizing i with
    | nil => cases ho
    | @cons o' v sources values hv _ ih =>
      cases i with
      | zero =>
        cases ho
        simpa using hv.2
      | succ i => exact ih i ho
  have hnone : ∀ i, s.sources[i]? = none → values.getD i 0 = 0 := by
    intro i hi
    rw [List.getElem?_eq_none_iff, h.length_eq] at hi
    rw [getD_eq_getElem?_getD, getElem?_eq_none hi]
    rfl
  have hfirst : values.getD 0 0 &&& (p.sourceTy s).mask = values.getD 0 0 := by
    unfold sourceTy
    split
    next o ho => exact hfits 0 o ho
    next ho =>
      rw [hnone 0 ho]
      exact UInt64.zero_and
  have hsecond : ∀ cmp, s.inst = .compare cmp →
      values.getD 1 0 &&& (p.sourceTy s).mask = values.getD 1 0 := by
    intro cmp hcmp
    cases ho : s.sources[1]? with
    | none =>
      rw [hnone 1 ho]
      exact UInt64.zero_and
    | some o =>
      rw [← ht.compare cmp hcmp o (mem_of_getElem? ho)]
      exact hfits 1 o ho
  cases hinst : s.inst with
  | compare cmp =>
    simp only [arguments, hfirst, hsecond cmp hinst]
    rfl
  | select =>
    simp only [arguments, hfirst]
    rfl
  | _ => rfl

section

variable (hs : p.SingleAssignment)

include hs

theorem Equates.of_constant (hcode : p.code b = done ++ id :: rest)
    (hdest : (p.stmt id).dest = some x) (hsources : p.ConstantSources (p.stmt id) values)
    (hvalue : (p.stmt id).inst.evaluate? (p.ty x) (p.sourceTy (p.stmt id)) values = some v)
    (hy : p.kind y = .constant v) : p.Equates x y := by
  have hid := mem_of_split hcode
  obtain ⟨j, hj⟩ := hs.dest b id hid x hdest
  have hread : ∀ {ω : Type} (host : Host ω) (σ : State ω), p.read host σ y = v := by
    simp [read, hy]
  have hpure := hsources.evaluate? (hs.typed b id hid) (p.ty x)
  rw [hvalue] at hpure
  have hphi : (p.stmt id).inst ≠ .phi := by
    intro hphi
    rw [hphi] at hvalue
    cases hvalue
  refine .op hcode hdest hphi ?_ (fun host visit σ => ?_) fun i hi => ?_
  · revert hvalue
    cases (p.stmt id).inst <;> simp [evaluate?, isTerminator]
  · have hargs := hsources.argument host σ
    have hty : p.destTy (p.stmt id) = p.ty x := by simp [destTy, hdest]
    rw [hread]
    unfold Program.execute
    simp only [hargs, hty, if_neg hphi, perform_pure hpure, hdest, assign, hj]
  · rw [hy] at hi
    cases hi

/-- The only other source of a phi is defined before the block: a path that comes back to the phi
has come to its block before. -/
theorem definedBefore_of_phi (hid : id ∈ p.code b) (hphi : (p.stmt id).inst = .phi)
    (hdest : (p.stmt id).dest = some x)
    (hsources : ∀ o ∈ (p.stmt id).sources, o = y ∨ o = x) {i : Nat} (hy : p.kind y = .local_ i) :
    p.DefinedBefore b y := by
  obtain ⟨j, hj⟩ := hs.dest b id hid x hdest
  suffices h : ∀ n visited, visited.length = n → p.Path visited b →
      ∃ c ∈ visited, p.Defines c y from
    fun visited hpath => h _ visited rfl hpath
  intro n
  induction n using Nat.strongRecOn with
  | _ n ih =>
    intro visited hlen hpath
    -- a visit of the block on the way is the end of a shorter path
    have hagain : ∀ later c rest, visited = later ++ c :: rest → p.Defines c x →
        ∃ c ∈ visited, p.Defines c y := by
      intro later c rest hsplit hdef
      obtain rfl := hs.once.block_eq hj ⟨id, hid, hdest⟩ hdef
      obtain ⟨d, hd, hdy⟩ := ih rest.length (by rw [← hlen, hsplit]; simp; omega) rest rfl
        (hpath.earlier hsplit)
      exact ⟨d, hsplit ▸ mem_append_right _ (.tail _ hd), hdy⟩
    cases hpath with
    | entry => exact absurd hphi (hs.entry id hid)
    | @step visited c _ hc hb =>
      obtain ⟨k, hk⟩ := mem_iff_getElem?.mp (hs.preds c b hc.reachable hb)
      have hlt : k < (p.stmt id).sources.length := by
        rw [hs.arity b id hid hphi]
        exact (List.getElem?_eq_some_iff.mp hk).1
      have hsource := getElem?_eq_getElem hlt
      have hbr : p.Reachable b := .step hc.reachable hb
      have hend := fun u i hu => hs.phi b hbr id hid hphi k u c hu hk i
      rcases hsources _ (getElem_mem hlt) with heq | heq
      · rw [heq] at hsource
        rcases hend y i hsource hy with hdef | hbefore
        · exact ⟨c, .head _, hdef⟩
        · obtain ⟨d, hd, hdy⟩ := hbefore visited hc
          exact ⟨d, .tail _ hd, hdy⟩
      · rw [heq] at hsource
        rcases hend x j hsource hj with hdef | hbefore
        · exact hagain [] c visited rfl hdef
        · obtain ⟨d, hd, hdx⟩ := hbefore visited hc
          obtain ⟨later, rest, hsplit⟩ := append_of_mem hd
          exact hagain (c :: later) d rest (congrArg (cons c) hsplit) hdx

/-! ### Forwarding -/

/-- An operation whose result equals `y` can go when `y` is read in its place. -/
theorem Equates.forward (hE : p.Equates x y) (hid : id ∈ p.code b)
    (hdest : (p.stmt id).dest = some x) (hside : (p.stmt id).inst.hasSideEffects = false)
    (hyreg : ∀ r, p.kind y ≠ .register r) (hty : p.ty y = p.ty x)
    (hself : x = y → ∀ c, p.Reachable c → id ∉ p.code c) :
    p.SameBehaviour ((p.subst x y).erase id) ∧ ((p.subst x y).erase id).SingleAssignment := by
  have hterm := isTerminator_of_hasSideEffects hside
  by_cases hxy : x = y
  · have hnot := hself hxy
    subst hxy
    rw [subst_self]
    exact ⟨.erase_unreachable hs.terminated hnot, hs.erase hterm (.inr hnot)⟩
  · have hsub := hE.singleAssignment_subst hs hyreg hty
    have hunused : ∀ c, (p.subst x y).Reachable c → ∀ e ∈ (p.subst x y).code c,
        ∀ o ∈ ((p.subst x y).stmt e).sources, ¬((p.subst x y).stmt id).Writes o := by
      intro c _ e _ o ho heq
      have hox : o = x := Option.some.inj (heq.symm.trans hdest)
      rcases mem_subst ho with ⟨-, hne⟩ | ⟨heq, -⟩
      · exact hne hox
      · exact hxy (hox.symm.trans heq)
    have hsame : p.SameBehaviour (p.subst x y) :=
      .of_run_eq fun host w n => (hE.run_subst hs hyreg hty host w n).1
    have herase : (p.subst x y).SameBehaviour ((p.subst x y).erase id) := by
      refine .erase hsub.terminated hside (fun d r hd hr => ?_) hunused
      obtain ⟨j, hj⟩ := hsub.dest b id hid d hd
      rw [hj] at hr
      cases hr
    exact ⟨hsame.trans herase, hsub.erase hterm (.inl hunused)⟩

/-- Where control comes, nothing is a copy of itself. -/
theorem SingleAssignment.not_self (hid : id ∈ p.code b) (hphi : (p.stmt id).inst ≠ .phi)
    (hdest : (p.stmt id).dest = some x)
    (hx : x ∈ (p.stmt id).sources) : ¬p.Reachable b := by
  intro hb
  obtain ⟨done, rest, hcode⟩ := append_of_mem hid
  obtain ⟨j, hj⟩ := hs.dest b id hid x hdest
  rcases hs.use b done id rest hcode hphi x hx j hj with ⟨e, he, hedest⟩ | hbefore
  · exact hs.once.dest_ne hj hcode hdest he hedest
  · exact hs.once.not_defines hj hb hbefore ⟨id, hid, hdest⟩

end

/-! ### Phis with one source -/

section Collapse

variable (hs : p.SingleAssignment) (hid : id ∈ p.code b) (hphi : (p.stmt id).inst = .phi)
  (hdest : (p.stmt id).dest = some x) (hsources : ∀ o ∈ (p.stmt id).sources, o = y ∨ o = x)
  (hy : y ∈ (p.stmt id).sources)

include hs hid hphi hdest hsources hy

theorem SingleAssignment.collapse : (p.withStmt id ⟨.copy, some x, [y]⟩).SingleAssignment := by
  let q := p.withStmt id ⟨.copy, some x, [y]⟩
  have hstmt : ∀ e, e ≠ id → q.stmt e = p.stmt e := fun e he =>
    (p.stmt_withStmt ..).trans (if_neg he)
  have hself : q.stmt id = ⟨.copy, some x, [y]⟩ := (p.stmt_withStmt ..).trans (if_pos rfl)
  have hdests : ∀ e, (q.stmt e).dest = (p.stmt e).dest := by
    intro e
    by_cases he : e = id
    · rw [he, hself, hdest]
    · rw [hstmt e he]
  have hsucc : ∀ c, q.successors c = p.successors c := by
    intro c
    have hcode : q.code c = p.code c := rfl
    unfold successors
    rw [hcode]
    cases (p.code c).getLast? with
    | none => rfl
    | some e =>
      dsimp only
      by_cases he : e = id
      · rw [he, hself, hphi]
        rfl
      · rw [hstmt e he]
  have hat : ∀ c done v, p.DefinedAt c done v → q.DefinedAt c done v := by
    rintro c done v (⟨e, he, hed⟩ | hbefore)
    · exact .inl ⟨e, he, (hdests e).trans hed⟩
    · refine .inr (hbefore.mono (fun c d _ hd => hsucc c ▸ hd) fun c _ hc => ?_)
      obtain ⟨e, he, hed⟩ := hc
      exact ⟨e, he, (hdests e).trans hed⟩
  have hreach : ∀ c, q.Reachable c → p.Reachable c := fun c hc =>
    hc.mono fun c d _ hd => hsucc c ▸ hd
  have hty : p.ty y = p.ty x := (hs.typed b id hid).phi hphi x hdest y hy
  change q.SingleAssignment
  refine ⟨fun c hc => ?_, fun e he => ?_, fun c d hc hd => ?_, fun c e he hephi => ?_,
    fun c e he d hd => hs.dest c e he d ((hdests e).symm.trans hd), fun c e he o ho => ?_,
    fun c e he => ?_, ?_, ?_, ?_⟩
  · refine (hs.terminated c (hreach c hc)).congr fun e _ => ?_
    by_cases he : e = id
    · rw [he, hself, hphi]
      rfl
    · rw [hstmt e he]
  · by_cases heq : e = id
    · rw [heq, hself]
      exact Instruction.noConfusion
    · rw [hstmt e heq]
      exact hs.entry e he
  · exact hs.preds c d (hreach c hc) (hsucc c ▸ hd)
  · by_cases heq : e = id
    · rw [heq, hself] at hephi
      cases hephi
    · rw [hstmt e heq] at hephi ⊢
      exact hs.arity c e he hephi
  · by_cases heq : e = id
    · rw [heq, hself] at ho
      rw [mem_singleton.mp ho]
      exact hs.source b id hid y hy
    · rw [hstmt e heq] at ho
      exact hs.source c e he o ho
  · by_cases heq : e = id
    · rw [heq, hself]
      refine ⟨fun _ d o hd ho => ?_, fun h => (by cases h), fun cmp h => (by cases h)⟩
      cases hd
      cases ho
      exact hty
    · have ht := hs.typed c e he
      rw [hstmt e heq]
      exact ⟨ht.copy, ht.phi, ht.compare⟩
  · intro c d l r l' r' e e' v i hl hl' he he' hv
    exact hs.once.place hv hl hl' ((hdests e).symm.trans he) ((hdests e').symm.trans he')
  · intro c done e rest hcode hephi o ho i hi
    apply hat
    by_cases heq : e = id
    · subst heq
      rw [hself] at ho
      obtain rfl := mem_singleton.mp ho
      -- the block of the phi is the only one that holds it
      have hcb : p.Defines c x := ⟨e, hcode ▸ by simp, hdest⟩
      obtain ⟨j, hj⟩ := hs.dest b e hid x hdest
      obtain rfl := hs.once.block_eq hj ⟨e, hid, hdest⟩ hcb
      exact .inr (definedBefore_of_phi hs hid hphi hdest hsources hi)
    · rw [hstmt e heq] at hephi ho
      exact hs.use c done e rest hcode hephi o ho i hi
  · intro c hc e he hephi k o d ho hd i hi
    by_cases heq : e = id
    · rw [heq, hself] at hephi
      cases hephi
    · rw [hstmt e heq] at hephi ho
      exact hat _ _ _ (hs.phi c (hreach c hc) e he hephi k o d ho hd i hi)

/-- A phi with one source besides its result can be a copy. -/
theorem SameBehaviour.collapse (hxy : x ≠ y) :
    p.SameBehaviour (p.withStmt id ⟨.copy, some x, [y]⟩) := by
  have hsq := hs.collapse hid hphi hdest hsources hy
  have hself : (p.withStmt id ⟨.copy, some x, [y]⟩).stmt id = ⟨.copy, some x, [y]⟩ := by
    rw [stmt_withStmt, if_pos rfl]
  have hyreg := hs.source b id hid y hy
  have hty : p.ty y = p.ty x := (hs.typed b id hid).phi hphi x hdest y hy
  have hE : p.Equates x y := .phi hid hdest hphi hsources fun i hi =>
    definedBefore_of_phi hs hid hphi hdest hsources hi
  obtain ⟨done, rest, hcode⟩ := append_of_mem hid
  have hE' : (p.withStmt id ⟨.copy, some x, [y]⟩).Equates x y :=
    .of_copy hsq hcode (by rw [hself]) (by rw [hself]) (by rw [hself]; rfl)
  obtain ⟨hp, hps⟩ := hE.forward hs hid hdest (by rw [hphi]; rfl) hyreg hty fun h => absurd h hxy
  obtain ⟨hq, -⟩ := hE'.forward hsq hid (by rw [hself]) (by rw [hself]; rfl) hyreg hty
    fun h => absurd h hxy
  have hagrees : ((p.subst x y).erase id).Agrees
      (((p.withStmt id ⟨.copy, some x, [y]⟩).subst x y).erase id) := by
    refine ⟨rfl, rfl, fun c e he => ?_, fun _ _ _ _ _ => ⟨rfl, rfl⟩⟩
    have hne := (mem_erase.mp he).2
    change Stmt.subst _ x y = Stmt.subst _ x y
    rw [stmt_withStmt, if_neg hne]
  exact (hp.trans (hagrees.sameBehaviour hps.terminated)).trans hq.symm

end Collapse

end Dynarec.IR.Program
