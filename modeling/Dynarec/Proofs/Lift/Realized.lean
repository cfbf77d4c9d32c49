import Dynarec.Lift.Code
import Dynarec.Proofs.IR.Versions

/-!
# Code of a program as steps

What it means that the operations of a program carry out steps, said without the functions that
write the operations. The rest of a block carries out steps and goes on with the rest of some block,
or ends the instruction.
-/

namespace Dynarec.Lift

open IR (BlockId OpId OperandId Program)

/-- The operand holds the value, where the results so far are in `temps`. -/
def Denotes (p : Program) (temps : List OperandId) : Value → OperandId → Prop
  | .const value ty, o => p.kind o = .constant (value &&& ty.mask) ∧ p.ty o = ty
  | .reg r ty, o => p.kind o = .register r ∧ p.ty o = ty
  | .temp i ty, o => temps[i]? = some o ∧ (∃ k, p.kind o = .local_ k) ∧ p.ty o = ty

theorem Denotes.ty_eq {p : Program} {temps : List OperandId} {v : Value} {o : OperandId}
    (h : Denotes p temps v o) : p.ty o = v.ty := by
  cases v with
  | const value ty => exact h.2
  | reg r ty => exact h.2
  | temp i ty => exact h.2.2

/-- What follows steps: operations that may use the results, or nothing. -/
inductive After where
  | on (temps : List OperandId) (ids : List OpId)
  | ended

inductive Realizes (p : Program) : List OperandId → List OpId → List Step → After → Prop
  | nil {temps ids} : Realizes p temps ids [] (.on temps ids)
  | mention {temps ids v rest after} (hrest : Realizes p temps ids rest after) :
      Realizes p temps ids (.mention v :: rest) after
  | compute {temps id ids inst ty sources os d k rest after} (hinst : inst.hasValue = true)
      (hstmt : p.stmt id = ⟨inst, some d, os⟩) (hkind : p.kind d = .local_ k) (hty : p.ty d = ty)
      (hnew : d ∉ temps) (hos : List.Forall₂ (Denotes p temps) sources os)
      (hrest : Realizes p (temps ++ [d]) ids rest after) :
      Realizes p temps (id :: ids) (.compute inst ty sources :: rest) after
  | perform {temps id ids inst sources os rest after} (hterm : inst.isTerminator = false)
      (hphi : inst ≠ .phi) (hstmt : p.stmt id = ⟨inst, none, os⟩)
      (hos : List.Forall₂ (Denotes p temps) sources os) (hrest : Realizes p temps ids rest after) :
      Realizes p temps (id :: ids) (.perform inst sources :: rest) after
  | assign {temps id ids r ty v d o rest after} (hstmt : p.stmt id = ⟨.copy, some d, [o]⟩)
      (hkind : p.kind d = .register r) (ho : Denotes p temps v o)
      (hrest : Realizes p temps ids rest after) :
      Realizes p temps (id :: ids) (.assign r ty v :: rest) after
  | haltCheck {temps i j e d k o next halted resume rest after}
      (hload : p.stmt i = ⟨.loadContext .running, some d, []⟩) (hkind : p.kind d = .local_ k)
      (hty : p.ty d = .i32) (hnew : d ∉ temps)
      (hbranch : p.stmt j = ⟨.branchIf next halted, none, [d]⟩) (hhalted : p.code halted = [e])
      (hexit : p.stmt e = ⟨.exit, none, [o]⟩) (ho : Denotes p temps (.const resume .i64) o)
      (hrest : Realizes p temps (p.code next) rest after) :
      Realizes p temps [i, j] (.haltCheck resume :: rest) after
  | dispatch {temps id v o rest} (hstmt : p.stmt id = ⟨.dispatch, none, [o]⟩)
      (ho : Denotes p temps v o) : Realizes p temps [id] (.dispatch v :: rest) .ended
  | branchOn {temps id i j v o y n yes no target next rest}
      (hbranch : p.stmt id = ⟨.branchIf yes no, none, [o]⟩) (ho : Denotes p temps v o)
      (hyes : p.code yes = [i]) (htarget : p.stmt i = ⟨.dispatch, none, [y]⟩)
      (hy : Denotes p temps (.const target .i64) y)
      (hno : p.code no = [j]) (hnext : p.stmt j = ⟨.dispatch, none, [n]⟩)
      (hn : Denotes p temps (.const next .i64) n) :
      Realizes p temps [id] (.branchOn v target next :: rest) .ended

theorem Realizes.append {p : Program} {temps temps' : List OperandId} {ids ids' : List OpId}
    {first second : List Step} {after : After}
    (h : Realizes p temps ids first (.on temps' ids')) (h' : Realizes p temps' ids' second after) :
    Realizes p temps ids (first ++ second) after := by
  generalize hmid : After.on temps' ids' = mid at h
  induction h with
  | nil =>
    cases hmid
    exact h'
  | mention _ ih => exact .mention (ih hmid)
  | compute hinst hstmt hkind hty hnew hos _ ih =>
    exact .compute hinst hstmt hkind hty hnew hos (ih hmid)
  | perform hterm hphi hstmt hos _ ih => exact .perform hterm hphi hstmt hos (ih hmid)
  | assign hstmt hkind ho _ ih => exact .assign hstmt hkind ho (ih hmid)
  | haltCheck hload hkind hty hnew hbranch hhalted hexit ho _ ih =>
    exact .haltCheck hload hkind hty hnew hbranch hhalted hexit ho (ih hmid)
  | dispatch _ _ => cases hmid
  | branchOn _ _ _ _ _ _ _ _ => cases hmid

/-- The operations carry out the code of an instruction; what follows it is in `next`. -/
inductive RealizesCode (p : Program) (ids : List OpId) (c : Code) :
    (next : Option (List OpId)) → Prop
  | on {temps ids'} (hguard : c.guard = none) (hbody : Realizes p [] ids c.body (.on temps ids')) :
      RealizesCode p ids c (some ids')
  | ended (hguard : c.guard = none) (hbody : Realizes p [] ids c.body .ended) :
      RealizesCode p ids c none
  | guarded {steps taken temps id o body join after} (hguard : c.guard = some (steps, taken))
      (hsteps : Realizes p [] ids steps (.on temps [id])) (ho : Denotes p temps taken o)
      (hstmt : p.stmt id = ⟨.branchIf body join, none, [o]⟩)
      (hbody : Realizes p [] (p.code body) c.body after)
      (hjoin : ∀ temps' ids', after = .on temps' ids' →
        ∃ i, ids' = [i] ∧ p.stmt i = ⟨.branch join, none, []⟩) :
      RealizesCode p ids c (some (p.code join))

/-- The operations carry out the code of instructions up to one that ends the block, and go on at
`limit` after the last one. -/
inductive RealizesBlock (p : Program) (limit : UInt64) : List OpId → List Code → Prop
  | nil {id o} (hstmt : p.stmt id = ⟨.dispatch, none, [o]⟩)
      (ho : Denotes p [] (.const limit .i64) o) : RealizesBlock p limit [id] []
  | next {ids ids' c rest} (hcode : RealizesCode p ids c (some ids'))
      (hrest : RealizesBlock p limit ids' rest) : RealizesBlock p limit ids (c :: rest)
  | last {ids c rest} (hcode : RealizesCode p ids c none) : RealizesBlock p limit ids (c :: rest)

end Dynarec.Lift
