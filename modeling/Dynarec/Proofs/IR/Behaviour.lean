import Dynarec.Proofs.IR.SingleAssignment

/-!
# Programs that behave in the same way

Two programs behave in the same way if they show the host the same, but for reads of the counters.
An operation without effects whose result is not used can go.
-/

namespace Dynarec.IR

open List Program

variable {ω : Type}

/-- The host does the same in worlds that are the same. -/
structure Host.Respects (host : Host ω) (Same : ω → ω → Prop) : Prop where
  equivalence : Equivalence Same
  context : ∀ {w w'}, Same w w' → host.context w = host.context w'
  put : ∀ {w w'} (field v), Same w w' → Same (host.put field v w) (host.put field v w')
  answer : ∀ {w w'} (site q), Same w w' →
    (host.answer site q w).1 = (host.answer site q w').1 ∧
      Same (host.answer site q w).2 (host.answer site q w').2

theorem Host.respects_eq (host : Host ω) : host.Respects Eq where
  equivalence := eq_equivalence
  context h := h ▸ rfl
  put _ _ h := h ▸ rfl
  answer _ _ h := h ▸ ⟨rfl, rfl⟩

/-- The host cannot tell whether the counters were read. -/
structure Host.CounterBlind (host : Host ω) (Same : ω → ω → Prop) : Prop
    extends host.Respects Same where
  counter : ∀ {q} (site w), q.isCounter = true → Same (host.answer site q w).2 w

/-- Two runs are at the same block, or have left in the same way. -/
inductive Outcome.Similar (Same : ω → ω → Prop) : Outcome ω → Outcome ω → Prop
  | running {pred : Option BlockId} {b : BlockId} {σ σ' : State ω} (h : Same σ.world σ'.world) :
      Similar Same (.running pred b σ) (.running pred b σ')
  | left {how : Leave} {w w' : ω} (h : Same w w') : Similar Same (.left how w) (.left how w')
  | stuck : Similar Same .stuck .stuck

theorem Outcome.Similar.equivalence {Same : ω → ω → Prop} (h : Equivalence Same) :
    Equivalence (Outcome.Similar Same) where
  refl out := by
    cases out with
    | running => exact .running (h.refl _)
    | left => exact .left (h.refl _)
    | stuck => exact .stuck
  symm hsim := by
    cases hsim with
    | running hw => exact .running (h.symm hw)
    | left hw => exact .left (h.symm hw)
    | stuck => exact .stuck
  trans hsim hsim' := by
    cases hsim with
    | running hw =>
      cases hsim' with
      | running hw' => exact .running (h.trans hw hw')
    | left hw =>
      cases hsim' with
      | left hw' => exact .left (h.trans hw hw')
    | stuck => exact hsim'

namespace Program

/-- No host that is blind to the counters can tell the programs apart. -/
def SameBehaviour (p q : Program) : Prop :=
  ∀ (ω : Type) (host : Host ω) (Same : ω → ω → Prop), host.CounterBlind Same → ∀ w n,
    Outcome.Similar Same (p.run host w n) (q.run host w n)

namespace SameBehaviour

variable {p q r : Program}

theorem of_run_eq (h : ∀ {ω : Type} (host : Host ω) w n, q.run host w n = p.run host w n) :
    p.SameBehaviour q := fun ω host Same hb w n => by
  rw [h]
  exact (Outcome.Similar.equivalence hb.equivalence).refl _

theorem refl (p : Program) : p.SameBehaviour p := of_run_eq fun _ _ _ => rfl

theorem symm (h : p.SameBehaviour q) : q.SameBehaviour p := fun _ _ _ hb w n =>
  (Outcome.Similar.equivalence hb.equivalence).symm (h _ _ _ hb w n)

theorem trans (h : p.SameBehaviour q) (h' : q.SameBehaviour r) : p.SameBehaviour r :=
  fun _ _ _ hb w n =>
    (Outcome.Similar.equivalence hb.equivalence).trans (h _ _ _ hb w n) (h' _ _ _ hb w n)

end SameBehaviour

/-! ### Operands that nothing reads -/

/-- The states differ in the values of the operands `x` at most. -/
structure Apart (Same : ω → ω → Prop) (x : OperandId → Prop) (σ σ' : State ω) : Prop where
  world : Same σ.world σ'.world
  locals : ∀ o, ¬x o → σ.locals o = σ'.locals o

section Apart

variable {p : Program} {host : Host ω} {Same : ω → ω → Prop} {x : OperandId → Prop}
  {σ σ' : State ω} (hb : host.Respects Same) (h : Apart Same x σ σ')

include hb h

theorem Apart.read {o : OperandId} (ho : ¬x o) : p.read host σ o = p.read host σ' o := by
  unfold Program.read
  split
  · exact h.locals o ho
  · rfl
  · rw [hb.context h.world]
  · rfl

theorem Apart.argument {s : Stmt} (hs : ∀ o ∈ s.sources, ¬x o) (i : Nat) :
    p.argument host σ s i = p.argument host σ' s i :=
  argument_map (map_id' _).symm (fun o ho => h.read hb (hs o ho)) i

theorem Apart.assign (dest : Option OperandId) (v : UInt64) :
    Apart Same x (p.assign host dest v σ) (p.assign host dest v σ') := by
  unfold Program.assign
  split
  · exact h
  next d =>
    split
    · refine ⟨h.world, fun o ho => ?_⟩
      by_cases hod : o = d
      · rw [hod, State.locals_set_self, State.locals_set_self]
      · rw [State.locals_set_of_ne _ hod, State.locals_set_of_ne _ hod, h.locals o ho]
    · exact ⟨hb.put _ _ h.world, h.locals⟩
    all_goals exact h

omit h in
theorem perform_same (site : Site) (inst : Instruction) (ty sourceTy : Ty) (a b c : UInt64)
    {w w' : ω} (hw : Same w w') :
    (host.perform site inst ty sourceTy a b c w).1 =
        (host.perform site inst ty sourceTy a b c w').1 ∧
      Same (host.perform site inst ty sourceTy a b c w).2
        (host.perform site inst ty sourceTy a b c w').2 := by
  unfold Host.perform
  split
  next q hq =>
    obtain ⟨hvalue, hworld⟩ := hb.answer site q hw
    refine ⟨?_, hworld⟩
    simp only [hvalue]
  · split
    · exact ⟨by rw [hb.context hw], hw⟩
    · exact ⟨rfl, hb.put _ _ hw⟩
    · exact ⟨rfl, hw⟩

theorem Apart.execute {site : Site} (hs : ∀ o ∈ (p.stmt site.op).sources, ¬x o) :
    Apart Same x (p.execute host site σ) (p.execute host site σ') := by
  unfold Program.execute
  simp only [h.argument hb hs]
  split
  · exact h
  · obtain ⟨hvalue, hworld⟩ := perform_same hb site (p.stmt site.op).inst
      (p.destTy (p.stmt site.op)) (p.sourceTy (p.stmt site.op))
      (p.argument host σ' (p.stmt site.op) 0) (p.argument host σ' (p.stmt site.op) 1)
      (p.argument host σ' (p.stmt site.op) 2) h.world
    generalize host.perform _ _ _ _ _ _ _ σ.world = res at hvalue hworld ⊢
    generalize host.perform _ _ _ _ _ _ _ σ'.world = res' at hvalue hworld ⊢
    obtain ⟨value, w⟩ := res
    obtain ⟨value', w'⟩ := res'
    obtain rfl : value = value' := hvalue
    cases value with
    | none => exact ⟨hworld, h.locals⟩
    | some v =>
      have hmid : Apart Same x { σ with world := w } { σ' with world := w' } := ⟨hworld, h.locals⟩
      exact hmid.assign hb _ v

theorem Apart.flow? {id : OpId} (hs : ∀ o ∈ (p.stmt id).sources, ¬x o) :
    p.flow? host σ id = p.flow? host σ' id := by
  simp only [Program.flow?, h.argument hb hs]

omit hb h in
/-- An operation without effects changes its result only. -/
theorem apart_execute (hb : host.CounterBlind Same) {site : Site}
    (hside : (p.stmt site.op).inst.hasSideEffects = false)
    (hdest : ∀ d r, (p.stmt site.op).dest = some d → p.kind d ≠ .register r) (σ : State ω) :
    Apart Same (p.stmt site.op).Writes (p.execute host site σ) σ := by
  refine ⟨?_, fun o ho => locals_execute_of_ne ho⟩
  have hperform : Same (host.perform site (p.stmt site.op).inst (p.destTy (p.stmt site.op))
      (p.sourceTy (p.stmt site.op)) (p.argument host σ (p.stmt site.op) 0)
      (p.argument host σ (p.stmt site.op) 1) (p.argument host σ (p.stmt site.op) 2) σ.world).2
      σ.world := by
    unfold Host.perform
    split
    next q hq =>
      refine hb.counter site σ.world ?_
      revert hq hside
      cases (p.stmt site.op).inst <;>
        simp [Instruction.hasSideEffects, Instruction.request?, Instruction.isTerminator] <;>
        rintro rfl <;> rfl
    · split
      · exact hb.equivalence.refl _
      next heq =>
        rw [heq] at hside
        cases hside
      · exact hb.equivalence.refl _
  unfold Program.execute
  dsimp only
  split
  · exact hb.equivalence.refl _
  · generalize host.perform _ _ _ _ _ _ _ σ.world = res at hperform ⊢
    obtain ⟨value, w⟩ := res
    cases value with
    | none => exact hperform
    | some v =>
      unfold Program.assign
      dsimp only
      split
      · exact hperform
      next d hd =>
        split
        · exact hperform
        next r hr => exact absurd hr (hdest d r hd)
        all_goals exact hperform

end Apart

/-! ### Erasing an operation -/

def erase (p : Program) (id : OpId) : Program :=
  { p with code := fun b => (p.code b).filter fun e => e ≠ id }

section Erase

variable {p : Program} {id : OpId} {b : BlockId} {ids : List OpId}

theorem findSome?_filter {α β : Type} {l : List α} {keep : α → Bool} {g : α → Option β}
    (h : ∀ a ∈ l, keep a = false → g a = none) : (l.filter keep).findSome? g = l.findSome? g := by
  induction l with
  | nil => rfl
  | cons a l ih =>
    have hrest := ih fun x hx => h x (.tail _ hx)
    cases ha : keep a with
    | true => rw [filter_cons_of_pos ha, findSome?_cons, findSome?_cons, hrest]
    | false =>
      rw [filter_cons_of_neg (by simp [ha]), findSome?_cons, h a (.head _) ha, hrest]

theorem isTerminator_of_hasSideEffects {inst : Instruction} (h : inst.hasSideEffects = false) :
    inst.isTerminator = false := by
  revert h
  cases inst <;> simp [Instruction.hasSideEffects]

theorem mem_erase {e : OpId} : e ∈ (p.erase id).code b ↔ e ∈ p.code b ∧ e ≠ id := by
  simp [erase]

theorem Terminated.filter (hterm : (p.stmt id).inst.isTerminator = false) (h : p.Terminated ids) :
    (p.erase id).Terminated (ids.filter fun e => e ≠ id) := by
  obtain ⟨first, last, rfl, hlast⟩ := h.exists_last
  have hne : last ≠ id := by
    rintro rfl
    rw [hterm] at hlast
    cases hlast
  rw [filter_append, filter_cons_of_pos (by simpa using hne), filter_nil]
  exact .concat (fun e he => h.front (mem_filter.mp he).1) hlast

/-- A block keeps its last operation if that is a terminator. -/
theorem successors_erase (hterm : (p.stmt id).inst.isTerminator = false)
    (hb : p.Terminated (p.code b)) : (p.erase id).successors b = p.successors b := by
  have hb' : (p.erase id).Terminated ((p.erase id).code b) := hb.filter hterm
  obtain ⟨first, last, hcode, hlast⟩ := hb'.exists_last
  have hmem := mem_of_split hcode
  rw [hb'.successors_eq hmem hlast, hb.successors_eq (mem_erase.mp hmem).1 hlast]
  rfl

variable {host : Host ω} {Same : ω → ω → Prop} {σ σ' : State ω} (hb : host.CounterBlind Same)

include hb

theorem runCode_erase (hside : (p.stmt id).inst.hasSideEffects = false)
    (hdest : ∀ d r, (p.stmt id).dest = some d → p.kind d ≠ .register r)
    (hunused : ∀ e ∈ ids, ∀ o ∈ (p.stmt e).sources, ¬(p.stmt id).Writes o) (visit : Nat)
    (h : Apart Same (p.stmt id).Writes σ σ') :
    (p.runCode host visit ids σ).1 =
        ((p.erase id).runCode host visit (ids.filter fun e => e ≠ id) σ').1 ∧
      Apart Same (p.stmt id).Writes (p.runCode host visit ids σ).2
        ((p.erase id).runCode host visit (ids.filter fun e => e ≠ id) σ').2 := by
  have hterm := isTerminator_of_hasSideEffects hside
  induction ids generalizing σ σ' with
  | nil => exact ⟨rfl, h⟩
  | cons e ids ih =>
    have hunused' := fun x hx => hunused x (.tail e hx)
    by_cases he : e = id
    · subst he
      rw [filter_cons_of_neg (by simp), runCode, p.flow?_eq_none host σ hterm]
      have hexec : Apart Same _ (p.execute host ⟨visit, e⟩ σ) σ := apart_execute hb hside hdest σ
      refine ih hunused' ⟨hb.equivalence.trans hexec.world h.world, fun o ho => ?_⟩
      rw [hexec.locals o ho, h.locals o ho]
    · rw [filter_cons_of_pos (by simpa using he), runCode, runCode]
      have hflow : (p.erase id).flow? host σ' e = p.flow? host σ e :=
        (h.flow? hb.toRespects (hunused e (.head _))).symm
      rw [hflow]
      cases p.flow? host σ e with
      | some flow => exact ⟨rfl, h⟩
      | none => exact ih hunused' (h.execute hb.toRespects (hunused e (.head _)))

theorem enter_erase {pred : Option BlockId}
    (hunused : ∀ e ∈ p.code b, ∀ o ∈ (p.stmt e).sources, ¬(p.stmt id).Writes o)
    (h : Apart Same (p.stmt id).Writes σ σ') :
    Apart Same (p.stmt id).Writes (p.enter host pred b σ) ((p.erase id).enter host pred b σ') := by
  refine ⟨by rw [world_enter, world_enter]; exact h.world, fun o ho => ?_⟩
  have hsource : ∀ k, (p.erase id).phiSource? b k o = p.phiSource? b k o := by
    intro k
    refine findSome?_filter fun e _ he => if_neg fun hphi => ho ?_
    obtain rfl : e = id := by simpa using he
    exact hphi.2
  have hpreds : (p.erase id).preds b = p.preds b := rfl
  unfold enter
  rw [hpreds]
  cases pred.bind ((p.preds b).idxOf?) with
  | none => exact h.locals o ho
  | some k =>
    simp only [hsource]
    cases hs : p.phiSource? b k o with
    | none => exact h.locals o ho
    | some s =>
      obtain ⟨e, he, -, -, hsome⟩ := exists_of_phiSource? hs
      exact h.read hb.toRespects (hunused e he s (mem_of_getElem? hsome))

end Erase

section Unused

variable {p : Program} {id : OpId}

/-- An operation without effects can go if its result is not used. -/
theorem SameBehaviour.erase (hterm : ∀ b, p.Reachable b → p.Terminated (p.code b))
    (hside : (p.stmt id).inst.hasSideEffects = false)
    (hdest : ∀ d r, (p.stmt id).dest = some d → p.kind d ≠ .register r)
    (hunused : ∀ b, p.Reachable b → ∀ e ∈ p.code b, ∀ o ∈ (p.stmt e).sources,
      ¬(p.stmt id).Writes o) : p.SameBehaviour (p.erase id) := by
  intro ω host Same hb w n
  suffices h : Outcome.Similar Same (p.run host w n) ((p.erase id).run host w n) ∧
      ∀ pred b σ pred' b' σ', p.run host w n = .running pred b σ →
        (p.erase id).run host w n = .running pred' b' σ' → Apart Same (p.stmt id).Writes σ σ'
          from h.1
  induction n with
  | zero =>
    refine ⟨.running (hb.equivalence.refl _), fun pred b σ pred' b' σ' h h' => ?_⟩
    cases h
    cases h'
    exact ⟨hb.equivalence.refl _, fun _ _ => rfl⟩
  | succ n ih =>
    obtain ⟨hsim, hapart⟩ := ih
    rw [run, run]
    generalize hout : p.run host w n = out at hsim hapart ⊢
    generalize (p.erase id).run host w n = out' at hsim hapart ⊢
    cases hsim with
    | @running pred b σ σ' _ =>
      have hbr := p.reachable_of_run hterm hout
      have henter : Apart Same _ (p.enter host pred b σ) ((p.erase id).enter host pred b σ') :=
        enter_erase hb (hunused b hbr) (hapart _ _ _ _ _ _ rfl rfl)
      obtain ⟨hflow, hstate⟩ := runCode_erase hb hside hdest (hunused b hbr) n henter
      have hcode : (p.erase id).code b = (p.code b).filter fun e => e ≠ id := rfl
      rw [advance, advance, hcode]
      generalize p.runCode host n (p.code b) _ = res at hflow hstate ⊢
      generalize (p.erase id).runCode host n _ _ = res' at hflow hstate ⊢
      obtain ⟨flow, τ⟩ := res
      obtain ⟨flow', τ'⟩ := res'
      obtain rfl : flow = flow' := hflow
      cases flow with
      | none => exact ⟨.stuck, fun _ _ _ _ _ _ h => by cases h⟩
      | some flow =>
        cases flow with
        | leave how => exact ⟨.left hstate.world, fun _ _ _ _ _ _ h => by cases h⟩
        | goto next =>
          refine ⟨.running hstate.world, fun _ _ _ _ _ _ h h' => ?_⟩
          cases h
          cases h'
          exact hstate
    | left hw => exact ⟨.left hw, fun _ _ _ _ _ _ h => by cases h⟩
    | stuck => exact ⟨.stuck, fun _ _ _ _ _ _ h => by cases h⟩

/-- An operation that is not reached can go. -/
theorem SameBehaviour.erase_unreachable (hterm : ∀ b, p.Reachable b → p.Terminated (p.code b))
    (hnot : ∀ b, p.Reachable b → id ∉ p.code b) : p.SameBehaviour (p.erase id) := by
  have halike : p.Alike (p.erase id) := by
    refine ⟨fun b hb => ?_, fun _ _ _ _ => rfl, fun _ _ _ _ _ _ => ⟨rfl, rfl⟩⟩
    refine filter_eq_self.mpr fun e he => ?_
    simpa using fun heq : e = id => hnot b hb (heq ▸ he)
  exact .of_run_eq fun host w n => halike.run_eq hterm (fun _ _ => .inl rfl) w n

/-- A split of a filtered list comes from a split of the list. -/
theorem exists_of_filter_eq {α : Type} {l done rest : List α} {keep : α → Bool} {a : α}
    (h : l.filter keep = done ++ a :: rest) :
    ∃ first second, l = first ++ a :: second ∧ done = first.filter keep := by
  obtain ⟨first, l, rfl, rfl, hrest⟩ := filter_eq_append_iff.mp h
  obtain ⟨skipped, second, rfl, hskipped, -⟩ := filter_eq_cons_iff.mp hrest
  refine ⟨first ++ skipped, second, (append_assoc ..).symm, ?_⟩
  rw [filter_append, filter_eq_nil_iff.mpr hskipped, append_nil]

/-- What is left is in static single assignment form. -/
theorem SingleAssignment.erase (hs : p.SingleAssignment)
    (hterm : (p.stmt id).inst.isTerminator = false)
    (hunused : (∀ b, p.Reachable b → ∀ e ∈ p.code b, ∀ o ∈ (p.stmt e).sources,
      ¬(p.stmt id).Writes o) ∨ ∀ b, p.Reachable b → id ∉ p.code b) :
    (p.erase id).SingleAssignment := by
  have hsucc : ∀ b c, p.Reachable b → c ∈ (p.erase id).successors b → c ∈ p.successors b :=
    fun b c hb hc => successors_erase hterm (hs.terminated b hb) ▸ hc
  have hreach : ∀ b, (p.erase id).Reachable b → p.Reachable b := fun b hb => hb.mono hsucc
  -- a use keeps its definition: the one that goes defines nothing that is used where control comes
  have hat : ∀ b c done u o, p.Reachable b → (∀ x ∈ done, x ∈ p.code b) → p.DefinedAt b done o →
      p.Reachable c → u ∈ p.code c → o ∈ (p.stmt u).sources →
      (p.erase id).DefinedAt b (done.filter fun x => x ≠ id) o := by
    intro b c done u o hb hdone hdef hc hu huse
    have hkeep : ∀ x, (∃ d, p.Reachable d ∧ x ∈ p.code d) → (p.stmt x).dest = some o → x ≠ id := by
      rintro x ⟨d, hd, hx⟩ hdest rfl
      rcases hunused with hunused | hunused
      · exact hunused c hc u hu o huse hdest
      · exact hunused d hd hx
    rcases hdef with ⟨x, hx, hdest⟩ | hbefore
    · exact .inl ⟨x, mem_filter.mpr ⟨hx, by simpa using hkeep x ⟨b, hb, hdone x hx⟩ hdest⟩, hdest⟩
    · refine .inr (hbefore.mono hsucc ?_)
      rintro d hd ⟨x, hx, hdest⟩
      exact ⟨x, mem_erase.mpr ⟨hx, hkeep x ⟨d, hd, hx⟩ hdest⟩, hdest⟩
  refine ⟨fun b hb => ?_, fun e he => ?_, fun b c hb hc => ?_, fun b e he => ?_, fun b e he => ?_,
    fun b e he => ?_, fun b e he => ?_, ?_, ?_, ?_⟩
  · exact (hs.terminated b (hreach b hb)).filter hterm
  · exact hs.entry e (mem_erase.mp he).1
  · have hb' := hreach b hb
    exact hs.preds b c hb' (successors_erase hterm (hs.terminated b hb') ▸ hc)
  · exact hs.arity b e (mem_erase.mp he).1
  · exact hs.dest b e (mem_erase.mp he).1
  · exact hs.source b e (mem_erase.mp he).1
  · have ht := hs.typed b e (mem_erase.mp he).1
    exact ⟨ht.copy, ht.phi, ht.compare⟩
  · intro b c l r l' r' e e' v i hcode hcode' hdest hdest' hi
    obtain ⟨first, second, hsplit, rfl⟩ := exists_of_filter_eq hcode
    obtain ⟨first', second', hsplit', rfl⟩ := exists_of_filter_eq hcode'
    obtain ⟨rfl, rfl, rfl⟩ := hs.once.place hi hsplit hsplit' hdest hdest'
    exact ⟨rfl, rfl, rfl⟩
  · intro b done e rest hcode hphi o ho i hi
    by_cases hb : p.Reachable b
    · obtain ⟨first, second, hsplit, rfl⟩ := exists_of_filter_eq hcode
      exact hat b b first e o hb (fun x hx => hsplit ▸ mem_append_left _ hx)
        (hs.use b first e second hsplit hphi o ho i hi) hb (mem_of_split hsplit) ho
    · exact .inr (definedBefore_of_not_reachable (fun hr => hb (hreach b hr)) o)
  · intro b hb e he hphi k o c ho hc i hi
    have hb' := hreach b hb
    have he' := (mem_erase.mp he).1
    by_cases hcr : p.Reachable c
    · exact hat c b (p.code c) e o hcr (fun x hx => hx)
        (hs.phi b hb' e he' hphi k o c ho hc i hi) hb' he' (mem_of_getElem? ho)
    · exact .inr (definedBefore_of_not_reachable (fun hr => hcr (hreach c hr)) o)

end Unused

end Program

end Dynarec.IR
