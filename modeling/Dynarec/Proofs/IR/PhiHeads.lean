import Dynarec.Proofs.IR.Rewriting

/-!
# Phis at the heads of blocks

Passes drop operations, replace operands and turn phis into copies. So what stands before a phi is
a phi or a copy, however many passes ran.
-/

namespace Dynarec.IR

open List

/-- What passes make of a statement: operands are replaced, and a phi may become a copy. -/
inductive Stmt.Reduces (s : Stmt) : Stmt → Prop
  | keep {sources : List OperandId} (h : sources.length = s.sources.length) :
      Reduces s ⟨s.inst, s.dest, sources⟩
  | collapse {o : OperandId} (h : s.inst = .phi) : Reduces s ⟨.copy, s.dest, [o]⟩

def Stmt.Carries (s : Stmt) : Prop :=
  s.dest.isSome = true ∧ (s.inst = .phi ∨ s.inst = .copy ∧ s.sources ≠ [])

namespace Stmt.Reduces

variable {s t u : Stmt}

theorem refl (s : Stmt) : s.Reduces s := .keep rfl

theorem subst (s : Stmt) (x y : OperandId) : s.Reduces (s.subst x y) :=
  .keep (length_map _)

section

variable (h : s.Reduces t)

include h

theorem trans (h' : t.Reduces u) : s.Reduces u := by
  cases h with
  | keep hlen =>
    cases h' with
    | keep hlen' => exact .keep (hlen'.trans hlen)
    | collapse hphi => exact .collapse hphi
  | collapse hphi =>
    cases h' with
    | @keep sources hlen' =>
      obtain ⟨o, rfl⟩ := length_eq_one_iff.mp hlen'
      exact .collapse hphi
    | collapse hcopy => cases hcopy

theorem dest_eq : t.dest = s.dest := by
  cases h <;> rfl

/-- Nothing becomes a phi. -/
theorem phi (ht : t.inst = .phi) : s.inst = .phi := by
  cases h with
  | keep _ => exact ht
  | collapse hs => exact hs

theorem isTerminator_eq : t.inst.isTerminator = s.inst.isTerminator := by
  cases h with
  | keep _ => rfl
  | collapse hs =>
    rw [hs]
    rfl

theorem carries (hs : s.Carries) : t.Carries := by
  refine ⟨h.dest_eq ▸ hs.1, ?_⟩
  cases h with
  | @keep sources hlen =>
    refine hs.2.imp_right fun hcopy => ⟨hcopy.1, fun hnil : sources = [] => hcopy.2 ?_⟩
    rw [hnil] at hlen
    exact length_eq_zero_iff.mp hlen.symm
  | collapse _ => exact .inr ⟨rfl, cons_ne_nil _ _⟩

end

end Stmt.Reduces

namespace Program

variable {p q r : Program} {b : BlockId} {id : OpId}

/-- `q` is what passes leave of `p`. -/
structure Reduces (p q : Program) : Prop where
  code : ∀ b, (q.code b).Sublist (p.code b)
  terminator : ∀ b, ∀ id ∈ p.code b, (p.stmt id).inst.isTerminator = true → id ∈ q.code b
  preds : q.preds = p.preds
  stmt : ∀ b, ∀ id ∈ q.code b, (p.stmt id).Reduces (q.stmt id)

def PhisLead (p : Program) : Prop :=
  ∀ b done id rest, p.code b = done ++ id :: rest → (p.stmt id).inst = .phi →
    ∀ x ∈ id :: done, (p.stmt x).Carries

theorem PhisLead.dest (h : p.PhisLead) (b : BlockId) (id : OpId) (hid : id ∈ p.code b)
    (hphi : (p.stmt id).inst = .phi) : ∃ d, (p.stmt id).dest = some d := by
  obtain ⟨done, rest, hcode⟩ := append_of_mem hid
  exact Option.isSome_iff_exists.mp (h b done id rest hcode hphi id (.head _)).1

def PhisFirst (p : Program) : Prop :=
  ∀ b done id rest, p.code b = done ++ id :: rest → (p.stmt id).inst = .phi →
    ∀ x ∈ done, (p.stmt x).inst = .phi

namespace Reduces

theorem refl (p : Program) : p.Reduces p where
  code _ := .refl _
  terminator _ _ hid _ := hid
  preds := rfl
  stmt _ _ _ := .refl _

theorem trans (h : p.Reduces q) (h' : q.Reduces r) : p.Reduces r where
  code b := (h'.code b).trans (h.code b)
  terminator b id hid hterm := by
    have hq := h.terminator b id hid hterm
    exact h'.terminator b id hq ((h.stmt b id hq).isTerminator_eq.trans hterm)
  preds := h'.preds.trans h.preds
  stmt b id hid := (h.stmt b id ((h'.code b).subset hid)).trans (h'.stmt b id hid)

theorem of_agrees (h : p.Agrees q) : p.Reduces q where
  code b := by rw [h.code]
  terminator b id hid _ := by rwa [h.code]
  preds := h.preds
  stmt b id hid := by
    rw [h.code] at hid
    rw [h.stmt b id hid]
    exact .refl _

theorem erase (hid : (p.stmt id).inst.isTerminator = false) : p.Reduces (p.erase id) where
  code b := filter_sublist
  terminator b x hx hterm := by
    refine mem_erase.mpr ⟨hx, ?_⟩
    rintro rfl
    rw [hid] at hterm
    cases hterm
  preds := rfl
  stmt _ _ _ := .refl _

theorem subst (p : Program) (x y : OperandId) : p.Reduces (p.subst x y) where
  code _ := .refl _
  terminator _ _ hid _ := hid
  preds := rfl
  stmt _ id _ := .subst (p.stmt id) x y

theorem collapse {x y : OperandId} (hphi : (p.stmt id).inst = .phi)
    (hdest : (p.stmt id).dest = some x) : p.Reduces (p.withStmt id ⟨.copy, some x, [y]⟩) where
  code _ := .refl _
  terminator _ _ hid _ := hid
  preds := rfl
  stmt b e _ := by
    rw [stmt_withStmt]
    split
    next heq =>
      rw [heq, ← hdest]
      exact .collapse hphi
    · exact .refl _

/-- What stands before an operation stood before it. -/
theorem split {done rest : List OpId} (h : p.Reduces q) (hcode : q.code b = done ++ id :: rest) :
    ∃ done' rest', p.code b = done' ++ id :: rest' ∧ done ⊆ done' := by
  have hsub := h.code b
  rw [hcode] at hsub
  obtain ⟨front, back, heq, hfront, hback⟩ := append_sublist_iff.mp hsub
  obtain ⟨before, after, rfl⟩ := append_of_mem (hback.subset (.head _))
  exact ⟨front ++ before, after, by rw [heq, append_assoc],
    fun x hx => mem_append_left _ (hfront.subset hx)⟩

theorem phisLead (h : p.Reduces q) (hp : p.PhisLead) : q.PhisLead := by
  intro b done id rest hcode hphi x hx
  obtain ⟨done', rest', hcode', hsub⟩ := h.split hcode
  have hmem : ∀ y ∈ id :: done, y ∈ q.code b := by
    intro y hy
    rw [hcode]
    rcases mem_cons.mp hy with rfl | hy
    · simp
    · exact mem_append_left _ hy
  have hx' : x ∈ id :: done' := by
    rcases mem_cons.mp hx with rfl | hx
    · exact .head _
    · exact .tail _ (hsub hx)
  have hid := (h.stmt b id (hmem id (.head _))).phi hphi
  exact (h.stmt b x (hmem x hx)).carries (hp b done' id rest' hcode' hid x hx')

/-- As long as no phi becomes a copy, phis stay in front. -/
theorem phisFirst (h : p.Reduces q) (hstmt : q.stmt = p.stmt) (hp : p.PhisFirst) : q.PhisFirst := by
  intro b done id rest hcode hphi x hx
  obtain ⟨done', rest', hcode', hsub⟩ := h.split hcode
  rw [hstmt] at hphi ⊢
  exact hp b done' id rest' hcode' hphi x (hsub hx)

/-- The terminator of a block stays at its end. -/
theorem terminated (h : p.Reduces q) (hterm : p.Terminated (p.code b)) :
    q.Terminated (q.code b) := by
  obtain ⟨first, last, hcode, hlast⟩ := hterm.exists_last
  have hkept := h.terminator b last (mem_of_split hcode) hlast
  have hstmt := fun x hx => (h.stmt b x hx).isTerminator_eq
  have hsub := h.code b
  rw [hcode] at hsub hterm
  obtain ⟨front, back, heq, hfront, hback⟩ := sublist_append_iff.mp hsub
  have hnot : last ∉ front := by
    intro hmem
    rw [hterm.front (hfront.subset hmem)] at hlast
    cases hlast
  rw [heq] at hkept hstmt ⊢
  have hback' : back = [last] := by
    rcases sublist_singleton.mp hback with rfl | rfl
    · simp [hnot] at hkept
    · rfl
  subst hback'
  refine .concat (fun x hx => ?_) ((hstmt last hkept).trans hlast)
  exact (hstmt x (mem_append_left _ hx)).trans (hterm.front (hfront.subset hx))

end Reduces

end Program

end Dynarec.IR
