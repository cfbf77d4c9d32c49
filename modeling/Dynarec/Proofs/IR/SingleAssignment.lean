import Dynarec.Proofs.IR.Dominance

/-!
# Static single assignment form

In a program where each local has one definition that comes before all its uses, a local that is
defined to be equal to another operand stays equal to it as long as it can be used. So it may be
replaced.
-/

namespace Dynarec.IR

open List Program

namespace Program

/-- Operand types agree where an instruction depends on it. -/
structure Typed (p : Program) (s : Stmt) : Prop where
  copy : s.inst = .copy → ∀ d o, s.dest = some d → s.sources[0]? = some o → p.ty o = p.ty d
  phi : s.inst = .phi → ∀ d, s.dest = some d → ∀ o ∈ s.sources, p.ty o = p.ty d
  compare : ∀ cmp, s.inst = .compare cmp → ∀ o ∈ s.sources, p.ty o = p.sourceTy s

/-- Each local has one definition, which comes before every use of it on all paths; a source of a
phi is used at the end of the predecessor it belongs to. There are no registers. -/
structure SingleAssignment (p : Program) : Prop where
  terminated : ∀ b, p.Reachable b → p.Terminated (p.code b)
  /-- No edge leads from outside to a phi of the entry. -/
  entry : ∀ id ∈ p.code Function.entry, (p.stmt id).inst ≠ .phi
  preds : ∀ b c, p.Reachable b → c ∈ p.successors b → b ∈ p.preds c
  arity : ∀ b, ∀ id ∈ p.code b, (p.stmt id).inst = .phi →
    (p.stmt id).sources.length = (p.preds b).length
  dest : ∀ b, ∀ id ∈ p.code b, ∀ d, (p.stmt id).dest = some d → ∃ i, p.kind d = .local_ i
  source : ∀ b, ∀ id ∈ p.code b, ∀ o ∈ (p.stmt id).sources, ∀ r, p.kind o ≠ .register r
  typed : ∀ b, ∀ id ∈ p.code b, p.Typed (p.stmt id)
  once : p.DefinedOnce
  use : ∀ b done id rest, p.code b = done ++ id :: rest → (p.stmt id).inst ≠ .phi →
    ∀ o ∈ (p.stmt id).sources, ∀ i, p.kind o = .local_ i → p.DefinedAt b done o
  phi : ∀ b, p.Reachable b → ∀ id ∈ p.code b, (p.stmt id).inst = .phi → ∀ (k : Nat) o c,
    (p.stmt id).sources[k]? = some o → (p.preds b)[k]? = some c →
    ∀ i, p.kind o = .local_ i → p.DefinedAt c (p.code c) o

/-- Only locals are written, each in one place, and phis have a source for each predecessor. -/
structure Versioned (p : Program) : Prop where
  terminated : ∀ b, p.Reachable b → p.Terminated (p.code b)
  preds : ∀ b c, p.Reachable b → c ∈ p.successors b → b ∈ p.preds c
  arity : ∀ b, ∀ id ∈ p.code b, (p.stmt id).inst = .phi →
    (p.stmt id).sources.length = (p.preds b).length
  dest : ∀ b, ∀ id ∈ p.code b, ∀ d, (p.stmt id).dest = some d → ∃ i, p.kind d = .local_ i
  once : p.DefinedOnce

theorem SingleAssignment.versioned {p : Program} (hs : p.SingleAssignment) : p.Versioned :=
  ⟨hs.terminated, hs.preds, hs.arity, hs.dest, hs.once⟩

/-- By its definition `x` has the value of `y`. -/
inductive Equates (p : Program) (x y : OperandId) : Prop
  | op {b : BlockId} {done rest : List OpId} {id : OpId} (hcode : p.code b = done ++ id :: rest)
      (hdest : (p.stmt id).dest = some x) (hphi : (p.stmt id).inst ≠ .phi)
      (hterm : (p.stmt id).inst.isTerminator = false)
      (hexec : ∀ {ω : Type} (host : Host ω) (visit : Nat) (σ : State ω),
        p.execute host ⟨visit, id⟩ σ = σ.set x (p.read host σ y))
      (hy : ∀ i, p.kind y = .local_ i → p.DefinedAt b done y)
  | phi {b : BlockId} {id : OpId} (hid : id ∈ p.code b) (hdest : (p.stmt id).dest = some x)
      (hphi : (p.stmt id).inst = .phi) (hsources : ∀ o ∈ (p.stmt id).sources, o = y ∨ o = x)
      (hy : ∀ i, p.kind y = .local_ i → p.DefinedBefore b y)

/-- The value of `x` has been set: phis are carried out when the block is entered. -/
def Known (p : Program) (b : BlockId) (done : List OpId) (x : OperandId) : Prop :=
  p.DefinedAt b done x ∨ ∃ id ∈ p.code b, (p.stmt id).inst = .phi ∧ (p.stmt id).dest = some x

theorem Known.of_concat {p : Program} {b : BlockId} {done : List OpId} {id : OpId} {x : OperandId}
    (h : p.Known b (done ++ [id]) x) : p.Known b done x ∨ (p.stmt id).dest = some x := by
  rcases h with (⟨e, he, hdest⟩ | hbefore) | hphi
  · rcases mem_append.mp he with he | he
    · exact .inl (.inl (.inl ⟨e, he, hdest⟩))
    · obtain rfl := mem_singleton.mp he
      exact .inr hdest
  · exact .inl (.inl (.inr hbefore))
  · exact .inl (.inr hphi)

section Equation

variable {p : Program} {x y : OperandId} (hs : p.SingleAssignment) (hE : p.Equates x y)

include hs hE

theorem Equates.local_ : ∃ i, p.kind x = .local_ i := by
  cases hE with
  | @op b done rest id hcode hdest _ _ _ _ => exact hs.dest b id (mem_of_split hcode) x hdest
  | phi hid hdest _ _ _ => exact hs.dest _ _ hid x hdest

/-- The other operand is defined before a block that `x` is defined before. -/
theorem Equates.definedBefore {b : BlockId} (hx : p.DefinedBefore b x) {i : Nat}
    (hy : p.kind y = .local_ i) : p.DefinedBefore b y := by
  obtain ⟨j, hj⟩ := hE.local_ hs
  cases hE with
  | op hcode hdest _ _ _ hdef => exact hs.once.definedBefore_trans hj hcode hdest (hdef i hy) hx
  | phi hid hdest _ _ hdef =>
    obtain ⟨done, rest, hcode⟩ := append_of_mem hid
    exact hs.once.definedBefore_trans hj hcode hdest (.inr (hdef i hy)) hx

/-- Where `x` is defined the other operand is. -/
theorem Equates.definedAt {b : BlockId} {done rest : List OpId} (hcode : p.code b = done ++ rest)
    (hx : p.DefinedAt b done x) {i : Nat} (hy : p.kind y = .local_ i) : p.DefinedAt b done y := by
  obtain ⟨j, hj⟩ := hE.local_ hs
  rcases hx with ⟨e, he, hdest⟩ | hx
  · obtain ⟨l, r, rfl⟩ := append_of_mem he
    rw [append_assoc, cons_append] at hcode
    cases hE with
    | op hcodex hdestx _ _ _ hdef =>
      obtain ⟨rfl, rfl, -⟩ := hs.once.place hj hcodex hcode hdestx hdest
      exact (hdef i hy).mono (subset_append_left _ _)
    | phi hidx hdestx _ _ hdef =>
      obtain ⟨rfl, -⟩ := hs.once.unique hj hidx (mem_of_split hcode) hdestx hdest
      exact .inr (hdef i hy)
  · exact .inr (hE.definedBefore hs hx hy)

/-- While `x` is known the other operand is not defined again. -/
theorem Equates.not_redefined {b : BlockId} {done rest : List OpId} {id : OpId}
    (hb : p.Reachable b) (hcode : p.code b = done ++ id :: rest) (hx : p.Known b done x) {i : Nat}
    (hy : p.kind y = .local_ i) : (p.stmt id).dest ≠ some y := by
  intro hdest
  obtain ⟨j, hj⟩ := hE.local_ hs
  have hmem := mem_of_split hcode
  have hbefore : ¬p.DefinedBefore b y := fun h => hs.once.not_defines hy hb h ⟨id, hmem, hdest⟩
  rcases hx with hx | ⟨e, he, hephi, hedest⟩
  · rcases hE.definedAt hs hcode hx hy with ⟨u, hu, hudest⟩ | hdef
    · exact hs.once.dest_ne hy hcode hdest hu hudest
    · exact hbefore hdef
  · cases hE with
    | op hcodex hdestx hphix _ _ _ =>
      obtain ⟨-, rfl⟩ := hs.once.unique hj (mem_of_split hcodex) he hdestx hedest
      exact hphix hephi
    | phi hidx hdestx _ _ hdef =>
      obtain ⟨rfl, -⟩ := hs.once.unique hj hidx he hdestx hedest
      exact hbefore (hdef i hy)

end Equation

/-! ### What one operation changes -/

section Locals

variable {ω : Type} {p : Program} {host : Host ω} {σ : State ω} {o : OperandId}

theorem locals_execute_of_ne {site : Site} (h : (p.stmt site.op).dest ≠ some o) :
    (p.execute host site σ).locals o = σ.locals o := by
  unfold execute
  dsimp only
  split
  · rfl
  · split
    next v w _ =>
      unfold assign
      split
      · rfl
      next d hd =>
        have hne : o ≠ d := fun heq => h (heq ▸ hd)
        split
        · exact State.locals_set_of_ne _ hne v
        all_goals rfl
    · rfl

/-- Reading an operand that is no register does not depend on the world. -/
theorem read_eq_of_locals {τ : State ω} (hreg : ∀ r, p.kind o ≠ .register r)
    (h : ∀ i, p.kind o = .local_ i → τ.locals o = σ.locals o) :
    p.read host τ o = p.read host σ o := by
  unfold read
  split
  next i hi => exact h i hi
  · rfl
  next r hr => exact absurd hr (hreg r)
  · rfl

theorem phiSource?_eq_none {b : BlockId} {k : Nat} (h : ¬p.Defines b o) :
    p.phiSource? b k o = none :=
  findSome?_eq_none_iff.mpr fun id hid => if_neg fun hphi => h ⟨id, hid, hphi.2⟩

theorem phiSource?_eq (hs : p.Versioned) {b : BlockId} {id : OpId} (hid : id ∈ p.code b)
    (hphi : (p.stmt id).inst = .phi) (hdest : (p.stmt id).dest = some o) (k : Nat) :
    p.phiSource? b k o = (p.stmt id).sources[k]? := by
  obtain ⟨i, hi⟩ := hs.dest b id hid o hdest
  refine phiSource?_of_mem hid hphi hdest fun x hx _ hxdest => ?_
  rw [(hs.once.unique hi hx hid hxdest hdest).2]

end Locals

/-! ### The equation along a run -/

section Run

variable {ω : Type} {p : Program} {host : Host ω} {x y : OperandId} {σ : State ω} {b c : BlockId}

def EquationAt (p : Program) (host : Host ω) (x y : OperandId) (b : BlockId) (done : List OpId)
    (σ : State ω) : Prop :=
  p.Known b done x → p.read host σ x = p.read host σ y

variable (hs : p.SingleAssignment) (hE : p.Equates x y) (hyreg : ∀ r, p.kind y ≠ .register r)

include hs hE hyreg

theorem Equates.enter (hc : p.Reachable c) (hb : b ∈ p.successors c)
    (h : p.EquationAt host x y c (p.code c) σ) :
    p.EquationAt host x y b [] (p.enter host (some c) b σ) := by
  intro hknown
  obtain ⟨j, hj⟩ := hE.local_ hs
  have hbr : p.Reachable b := .step hc hb
  have hxreg : ∀ r, p.kind x ≠ .register r := fun r hr => by rw [hj] at hr; cases hr
  obtain ⟨k, hk, hpred⟩ := p.exists_idxOf?_preds (hs.preds c b hc hb)
  have hy : (∀ i, p.kind y = .local_ i → ¬p.Defines b y) →
      p.read host (p.enter host (some c) b σ) y = p.read host σ y := fun hnot =>
    read_eq_of_locals hyreg fun i hi =>
      p.locals_enter_of_none host hk σ (phiSource?_eq_none (hnot i hi))
  rcases hknown with (⟨e, he, -⟩ | hbefore) | ⟨e, he, hphi, hdest⟩
  · cases he
  · rw [hy fun i hi => hs.once.not_defines hi hbr (hE.definedBefore hs hbefore hi),
      ← h (.inl (hbefore.pred hb))]
    refine read_eq_of_locals hxreg fun i hi => ?_
    exact p.locals_enter_of_none host hk σ (phiSource?_eq_none (hs.once.not_defines hi hbr hbefore))
  · have hread : ∀ o, (p.stmt e).sources[k]? = some o →
        p.read host (p.enter host (some c) b σ) x = p.read host σ o := by
      intro o ho
      have hval := p.locals_enter_of_some host hk σ
        ((phiSource?_eq hs.versioned he hphi hdest k).trans ho)
      rw [← hval]
      conv_lhs => rw [read, hj]
    cases hE with
    | op hcodex hdestx hphix _ _ _ =>
      obtain ⟨-, rfl⟩ := hs.once.unique hj (mem_of_split hcodex) he hdestx hdest
      exact absurd hphi hphix
    | @phi bx idx hidx hdestx hphix hsources hdef =>
      obtain ⟨rfl, rfl⟩ := hs.once.unique hj hidx he hdestx hdest
      have hlt : k < (p.stmt idx).sources.length := by
        rw [hs.arity bx idx hidx hphix]
        exact (List.getElem?_eq_some_iff.mp hpred).1
      have hsource : (p.stmt idx).sources[k]? = some (p.stmt idx).sources[k] :=
        getElem?_eq_getElem hlt
      rw [hread _ hsource, hy fun i hi => hs.once.not_defines hi hbr (hdef i hi)]
      rcases hsources _ (getElem_mem hlt) with heq | heq
      · rw [heq]
      · rw [heq] at hsource ⊢
        exact h (.inl (hs.phi bx hbr idx hidx hphix k x c hsource hpred j hj))

theorem Equates.execute (hb : p.Reachable b) {done rest : List OpId} {id : OpId}
    (hcode : p.code b = done ++ id :: rest) (visit : Nat)
    (h : p.EquationAt host x y b done σ) :
    p.EquationAt host x y b (done ++ [id]) (p.execute host ⟨visit, id⟩ σ) := by
  intro hknown
  obtain ⟨j, hj⟩ := hE.local_ hs
  have hid := mem_of_split hcode
  by_cases hphi : (p.stmt id).inst = .phi
  · have hσ : p.execute host ⟨visit, id⟩ σ = σ := by simp [Program.execute, hphi]
    rw [hσ]
    rcases hknown.of_concat with hbefore | hdest
    · exact h hbefore
    · exact h (.inr ⟨id, hid, hphi, hdest⟩)
  · by_cases hdest : (p.stmt id).dest = some x
    · cases hE with
      | op hcodex hdestx _ _ hexec _ =>
        obtain ⟨-, -, rfl⟩ := hs.once.place hj hcodex hcode hdestx hdest
        rw [hexec]
        have hx : p.read host (σ.set x (p.read host σ y)) x = p.read host σ y := by
          conv_lhs => rw [read, hj]
          exact σ.locals_set_self x _
        rw [hx]
        by_cases hxy : y = x
        · rw [hxy] at hx ⊢
          exact hx.symm
        · exact (read_eq_of_locals hyreg fun _ _ => σ.locals_set_of_ne hxy _).symm
      | phi hidx hdestx hphix _ _ =>
        obtain ⟨-, rfl⟩ := hs.once.unique hj hidx hid hdestx hdest
        exact absurd hphix hphi
    · have hbefore := hknown.of_concat.resolve_right hdest
      have hxreg : ∀ r, p.kind x ≠ .register r := fun r hr => by rw [hj] at hr; cases hr
      rw [read_eq_of_locals hxreg fun _ _ => locals_execute_of_ne hdest, h hbefore]
      exact (read_eq_of_locals hyreg fun i hi =>
        locals_execute_of_ne (hE.not_redefined hs hb hcode hbefore hi)).symm

end Run

end Program

/-! ### Substitution -/

def Stmt.subst (s : Stmt) (x y : OperandId) : Stmt :=
  { s with sources := s.sources.map fun o => if o = x then y else o }

def Program.subst (p : Program) (x y : OperandId) : Program :=
  { p with stmt := fun id => (p.stmt id).subst x y }

namespace Program

variable {p : Program} {x y : OperandId}

theorem subst_self (p : Program) (x : OperandId) : p.subst x x = p := by
  have hstmt : ∀ s : Stmt, s.subst x x = s := by
    intro s
    have hmap : (s.sources.map fun o => if o = x then x else o) = s.sources := by
      conv_rhs => rw [← map_id s.sources]
      refine map_congr_left fun o _ => ?_
      split
      next h => exact h.symm
      · rfl
    rw [Stmt.subst, hmap]
  exact Program.ext rfl (funext fun id => hstmt _) rfl rfl rfl

theorem getElem?_subst (s : Stmt) (k : Nat) :
    (s.subst x y).sources[k]? = s.sources[k]?.map fun o => if o = x then y else o :=
  getElem?_map

theorem mem_subst {s : Stmt} {o : OperandId} (ho : o ∈ (s.subst x y).sources) :
    (o ∈ s.sources ∧ o ≠ x) ∨ (o = y ∧ x ∈ s.sources) := by
  obtain ⟨u, hu, rfl⟩ := mem_map.mp ho
  by_cases hux : u = x
  · rw [if_pos hux]
    exact .inr ⟨rfl, hux ▸ hu⟩
  · rw [if_neg hux]
    exact .inl ⟨hu, hux⟩

theorem sourceTy_subst (hty : p.ty y = p.ty x) (s : Stmt) :
    (p.subst x y).sourceTy (s.subst x y) = p.sourceTy s := by
  refine sourceTy_map rfl fun o _ => ?_
  split
  next h => rw [h]; exact hty
  · rfl

section Behaviour

variable {ω : Type} {host : Host ω} {σ : State ω} {b c : BlockId}

theorem argument_subst {s : Stmt} (h : x ∈ s.sources → p.read host σ x = p.read host σ y)
    (i : Nat) : (p.subst x y).argument host σ (s.subst x y) i = p.argument host σ s i := by
  refine argument_map rfl (fun o ho => ?_) i
  split
  next heq =>
    subst heq
    exact (h ho).symm
  · rfl

variable (hs : p.SingleAssignment) (hE : p.Equates x y) (hyreg : ∀ r, p.kind y ≠ .register r)
  (hty : p.ty y = p.ty x) {done rest : List OpId} {id : OpId}

include hs hE

/-- Where `x` is used it is known. -/
theorem Equates.read_eq (hcode : p.code b = done ++ id :: rest) (hphi : (p.stmt id).inst ≠ .phi)
    (h : p.EquationAt host x y b done σ) (hx : x ∈ (p.stmt id).sources) :
    p.read host σ x = p.read host σ y := by
  obtain ⟨j, hj⟩ := hE.local_ hs
  exact h (.inl (hs.use b done id rest hcode hphi x hx j hj))

include hty in
theorem Equates.execute_subst (hcode : p.code b = done ++ id :: rest) (visit : Nat)
    (h : p.EquationAt host x y b done σ) :
    (p.subst x y).execute host ⟨visit, id⟩ σ = p.execute host ⟨visit, id⟩ σ := by
  have hstmt : (p.subst x y).stmt id = (p.stmt id).subst x y := rfl
  have hinst : ((p.stmt id).subst x y).inst = (p.stmt id).inst := rfl
  unfold Program.execute
  simp only [hstmt, hinst]
  split
  · rfl
  next hphi =>
    simp only [argument_subst (hE.read_eq hs hcode hphi h), sourceTy_subst hty]
    rfl

include hty in
theorem Equates.flow?_subst (hcode : p.code b = done ++ id :: rest)
    (h : p.EquationAt host x y b done σ) :
    (p.subst x y).flow? host σ id = p.flow? host σ id := by
  by_cases hphi : (p.stmt id).inst = .phi
  · have hphi' : ((p.subst x y).stmt id).inst = .phi := hphi
    simp [flow?, hphi, hphi']
  · have hstmt : (p.subst x y).stmt id = (p.stmt id).subst x y := rfl
    have hinst : ((p.stmt id).subst x y).inst = (p.stmt id).inst := rfl
    simp only [flow?, hstmt, hinst, argument_subst (hE.read_eq hs hcode hphi h), sourceTy_subst hty]

/-- Both programs do the same in a block, and the equation holds at its end. -/
theorem Equates.runCode_subst (hyreg : ∀ r, p.kind y ≠ .register r) (hty : p.ty y = p.ty x)
    (hb : p.Reachable b) (hcode : p.code b = done ++ rest) (visit : Nat)
    (h : p.EquationAt host x y b done σ) :
    (p.subst x y).runCode host visit rest σ = p.runCode host visit rest σ ∧
      p.EquationAt host x y b (p.code b) (p.runCode host visit rest σ).2 := by
  induction rest generalizing done σ with
  | nil =>
    refine ⟨rfl, ?_⟩
    rw [hcode, append_nil]
    exact h
  | cons id rest ih =>
    rw [runCode, runCode, hE.flow?_subst hs hty hcode h]
    cases hflow : p.flow? host σ id with
    | none =>
      simp only [hE.execute_subst hs hty hcode visit h]
      exact ih (by rw [hcode]; simp) (hE.execute hs hyreg hb hcode visit h)
    | some flow =>
      refine ⟨rfl, fun hknown => h ?_⟩
      -- the terminator is the last operation and is not what defines `x`
      obtain ⟨j, hj⟩ := hE.local_ hs
      have hyes := isTerminator_of_flow? hflow
      obtain rfl : rest = [] := by
        have hterm := hs.terminated b hb
        rw [hcode] at hterm
        exact hterm.of_append.eq_nil hyes
      rw [hcode] at hknown
      refine hknown.of_concat.resolve_right fun hdest => ?_
      cases hE with
      | op hcodex hdestx _ hterm _ _ =>
        obtain ⟨-, -, rfl⟩ := hs.once.place hj hcodex hcode hdestx hdest
        rw [hyes] at hterm
        cases hterm
      | phi hidx hdestx hphix _ _ =>
        obtain ⟨-, rfl⟩ := hs.once.unique hj hidx (mem_of_split hcode) hdestx hdest
        rw [hphix] at hyes
        cases hyes

theorem Equates.enter_subst (hb : p.Reachable b) (h : p.EquationAt host x y c (p.code c) σ) :
    (p.subst x y).enter host (some c) b σ = p.enter host (some c) b σ := by
  obtain ⟨j, hj⟩ := hE.local_ hs
  have hpreds : (p.subst x y).preds b = p.preds b := rfl
  cases hk : (p.preds b).idxOf? c with
  | none => simp only [Program.enter, Option.bind_some, hpreds, hk]
  | some k =>
    have hpred : (p.preds b)[k]? = some c := by
      obtain ⟨hlt, heq, -⟩ := idxOf?_eq_some_iff.mp hk
      rw [getElem?_eq_getElem hlt, heq]
    have hsource : ∀ o, (p.subst x y).phiSource? b k o =
        (p.phiSource? b k o).map fun u => if u = x then y else u := by
      intro o
      unfold phiSource?
      rw [map_findSome?]
      refine congrArg ((p.code b).findSome?) (funext fun id => ?_)
      change (if (p.stmt id).inst = .phi ∧ (p.stmt id).dest = some o then _ else _) = _
      simp only [Function.comp]
      split
      · exact getElem?_subst _ k
      · rfl
    simp only [Program.enter, Option.bind_some, hpreds, hk]
    refine congrArg (fun locals => { σ with locals }) (funext fun o => ?_)
    rw [hsource]
    cases hphi : p.phiSource? b k o with
    | none => rfl
    | some u =>
      simp only [Option.map_some]
      split
      next heq =>
        subst heq
        obtain ⟨id, hid, hinst, -, hsome⟩ := exists_of_phiSource? hphi
        exact (h (.inl (hs.phi b hb id hid hinst k u c hsome hpred j hj))).symm
      · rfl

end Behaviour

section Whole

variable (hs : p.SingleAssignment) (hE : p.Equates x y) (hyreg : ∀ r, p.kind y ≠ .register r)
  (hty : p.ty y = p.ty x)

include hs hE hyreg hty

/-- Reading `y` in place of `x` changes nothing in a run. -/
theorem Equates.run_subst {ω : Type} (host : Host ω) (w : ω) (n : Nat) :
    (p.subst x y).run host w n = p.run host w n ∧
      ∀ pred b σ, p.run host w n = .running pred b σ →
        (pred = none ∧ b = Function.entry) ∨ ∃ c, pred = some c ∧ p.Reachable c ∧
          b ∈ p.successors c ∧ p.EquationAt host x y c (p.code c) σ := by
  induction n with
  | zero =>
    refine ⟨rfl, fun pred b σ hrun => .inl ?_⟩
    cases hrun
    exact ⟨rfl, rfl⟩
  | succ n ih =>
    obtain ⟨hsame, hinv⟩ := ih
    rw [run, run, hsame]
    cases hprev : p.run host w n with
    | running pred b σ =>
      have henter : p.Reachable b ∧
          (p.subst x y).enter host pred b σ = p.enter host pred b σ ∧
          p.EquationAt host x y b [] (p.enter host pred b σ) := by
        rcases hinv pred b σ hprev with ⟨rfl, rfl⟩ | ⟨c, rfl, hc, hb, heq⟩
        · refine ⟨.entry, rfl, fun hknown => ?_⟩
          rcases hknown with (⟨e, he, -⟩ | hbefore) | ⟨e, he, hphi, -⟩
          · cases he
          · obtain ⟨c, hc, -⟩ := hbefore [] .entry
            cases hc
          · exact absurd hphi (hs.entry e he)
        · exact ⟨.step hc hb, hE.enter_subst hs (.step hc hb) heq, hE.enter hs hyreg hc hb heq⟩
      obtain ⟨hb, hsubst, heq⟩ := henter
      obtain ⟨hcode, hend⟩ := hE.runCode_subst hs hyreg hty hb rfl n heq
      simp only [advance, hsubst]
      rw [show (p.subst x y).code b = p.code b from rfl, hcode]
      refine ⟨rfl, fun pred' b' σ' hrun => .inr ?_⟩
      generalize hres : p.runCode host n (p.code b) (p.enter host pred b σ) = res at *
      obtain ⟨flow, τ⟩ := res
      rcases flow with _ | (next | how)
      · cases hrun
      · cases hrun
        exact ⟨b, rfl, hb, (hs.terminated b hb).goto_successor hres, hend⟩
      · cases hrun
    | left how w' => exact ⟨rfl, fun _ _ _ hrun => by cases hrun⟩
    | stuck => exact ⟨rfl, fun _ _ _ hrun => by cases hrun⟩

theorem Equates.singleAssignment_subst : (p.subst x y).SingleAssignment := by
  obtain ⟨j, hj⟩ := hE.local_ hs
  have hat : ∀ b done v, p.DefinedAt b done v → (p.subst x y).DefinedAt b done v := by
    intro b done v hv
    refine hv.imp_right fun h => ?_
    exact h.mono (p := p) (q := p.subst x y) (fun _ _ _ hc => hc) fun _ _ hdef => hdef
  have hreach : ∀ b, (p.subst x y).Reachable b → p.Reachable b := fun b hb =>
    hb.mono fun _ _ _ hc => hc
  refine ⟨fun b hb => (hs.terminated b (hreach b hb)).congr (p := p) fun _ _ => rfl, hs.entry,
    fun b c hb => hs.preds b c (hreach b hb), fun b id hid hphi => ?_, hs.dest, ?_, ?_,
    hs.once, ?_, ?_⟩
  · exact (length_map _).trans (hs.arity b id hid hphi)
  · intro b id hid o ho
    rcases mem_subst ho with ⟨ho, -⟩ | ⟨rfl, -⟩
    · exact hs.source b id hid o ho
    · exact hyreg
  · intro b id hid
    have ht := hs.typed b id hid
    have hmap : ∀ o : OperandId, p.ty (if o = x then y else o) = p.ty o := by
      intro o
      split
      next h => rw [h, hty]
      · rfl
    refine ⟨fun hcopy d o hd ho => ?_, fun hphi d hd o ho => ?_, fun cmp hcmp o ho => ?_⟩
    · change ((p.stmt id).subst x y).sources[0]? = some o at ho
      rw [getElem?_subst] at ho
      obtain ⟨u, hu, rfl⟩ := Option.map_eq_some_iff.mp ho
      exact (hmap u).trans (ht.copy hcopy d u hd hu)
    · obtain ⟨u, hu, rfl⟩ := mem_map.mp ho
      exact (hmap u).trans (ht.phi hphi d hd u hu)
    · obtain ⟨u, hu, rfl⟩ := mem_map.mp ho
      exact (hmap u).trans ((ht.compare cmp hcmp u hu).trans (sourceTy_subst hty _).symm)
  · intro b done id rest hcode hphi o ho i hi
    apply hat
    rcases mem_subst ho with ⟨ho, -⟩ | ⟨rfl, hx⟩
    · exact hs.use b done id rest hcode hphi o ho i hi
    · exact hE.definedAt hs hcode (hs.use b done id rest hcode hphi x hx j hj) hi
  · intro b hb id hid hphi k o c ho hc i hi
    have hb' := hreach b hb
    apply hat
    change ((p.stmt id).subst x y).sources[k]? = some o at ho
    rw [getElem?_subst] at ho
    obtain ⟨u, hu, rfl⟩ := Option.map_eq_some_iff.mp ho
    by_cases hux : u = x
    · subst hux
      rw [if_pos rfl] at hi ⊢
      exact hE.definedAt hs (append_nil _).symm (hs.phi b hb' id hid hphi k u c hu hc j hj) hi
    · rw [if_neg hux] at hi ⊢
      exact hs.phi b hb' id hid hphi k u c hu hc i hi

end Whole

end Program

end Dynarec.IR
