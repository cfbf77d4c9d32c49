import Dynarec.Proofs.IR.Behaviour

/-!
# Phis as copies

A phi becomes a copy of a temporary that every predecessor sets at its end. Nothing else mentions
the temporaries, so the order of the copies does not matter and the program behaves as before. Only
phis at the head of a block are replaced; others stay phis, and take their values on entry.
-/

namespace Dynarec.IR.Program

open List

variable {ω : Type} {host : Host ω} {p q : Program}

/-! ### Copies that can be carried out in any order -/

structure Parallel (p : Program) (ids : List OpId) : Prop where
  copy : ∀ id ∈ ids, ∃ d s i, p.stmt id = ⟨.copy, some d, [s]⟩ ∧ p.kind d = .local_ i
  apart : ∀ id ∈ ids, ∀ e ∈ ids, ∀ o ∈ (p.stmt e).sources, ¬(p.stmt id).Writes o
  agree : ∀ id ∈ ids, ∀ e ∈ ids, (p.stmt id).dest = (p.stmt e).dest → p.stmt id = p.stmt e

theorem Parallel.tail {id : OpId} {ids : List OpId} (h : p.Parallel (id :: ids)) :
    p.Parallel ids where
  copy x hx := h.copy x (.tail _ hx)
  apart x hx e he := h.apart x (.tail _ hx) e (.tail _ he)
  agree x hx e he := h.agree x (.tail _ hx) e (.tail _ he)

theorem execute_copy {site : Site} {d s : OperandId} {i : Nat}
    (hstmt : p.stmt site.op = ⟨.copy, some d, [s]⟩) (hkind : p.kind d = .local_ i) (σ : State ω) :
    p.execute host site σ = σ.set d (p.read host σ s) := by
  simp [execute, hstmt, Host.perform, Instruction.request?, Instruction.pureValue, assign, hkind,
    argument]

theorem read_set_of_ne {d o : OperandId} (h : o ≠ d) (v : UInt64) (σ : State ω) :
    p.read host (σ.set d v) o = p.read host σ o := by
  unfold read
  split
  · exact State.locals_set_of_ne _ h v
  all_goals rfl

/-- All copies read the values from before. -/
theorem Parallel.run {ids : List OpId} (h : p.Parallel ids) (host : Host ω) (visit : Nat)
    (rest : List OpId) (σ : State ω) : ∃ τ,
      p.runCode host visit (ids ++ rest) σ = p.runCode host visit rest τ ∧ τ.world = σ.world ∧
      (∀ id ∈ ids, ∀ d s, p.stmt id = ⟨.copy, some d, [s]⟩ → τ.locals d = p.read host σ s) ∧
      ∀ o, (∀ id ∈ ids, ¬(p.stmt id).Writes o) → τ.locals o = σ.locals o := by
  induction ids generalizing σ with
  | nil => exact ⟨σ, rfl, rfl, forall_mem_nil _, fun _ _ => rfl⟩
  | cons id ids ih =>
    obtain ⟨d, s, i, hstmt, hkind⟩ := h.copy id (.head _)
    obtain ⟨τ, hrun, hworld, hvalue, hother⟩ := ih h.tail (σ.set d (p.read host σ s))
    have hflow : p.flow? host σ id = none := by simp [flow?, hstmt]
    refine ⟨τ, ?_, hworld, ?_, fun o ho => ?_⟩
    · rw [cons_append, runCode, hflow]
      rw [execute_copy hstmt hkind]
      exact hrun
    · intro e he d' s' hstmt'
      rcases mem_cons.mp he with rfl | he
      · rw [hstmt] at hstmt'
        cases hstmt'
        -- a later copy to the same operand copies the same
        by_cases hagain : ∃ x ∈ ids, (p.stmt x).Writes d
        · obtain ⟨x, hx, hwrites⟩ := hagain
          have hsame := h.agree x (.tail _ hx) e (.head _) (hwrites.trans (by rw [hstmt]))
          rw [hvalue x hx d s (hsame.trans hstmt)]
          refine read_set_of_ne (fun heq => ?_) _ σ
          exact h.apart e (.head _) e (.head _) s (by simp [hstmt])
            (by rw [heq, Stmt.Writes, hstmt])
        · rw [hother d fun x hx hw => hagain ⟨x, hx, hw⟩, State.locals_set_self]
      · rw [hvalue e he d' s' hstmt']
        refine read_set_of_ne (fun heq => ?_) _ σ
        exact h.apart id (.head _) e (.tail _ he) s' (by simp [hstmt'])
          (by rw [heq, Stmt.Writes, hstmt])
    · rw [hother o fun x hx => ho x (.tail _ hx)]
      refine State.locals_set_of_ne _ (fun heq => ho id (.head _) ?_) _
      rw [heq, Stmt.Writes, hstmt]

/-! ### Operations in front of a terminator -/

theorem dropLast_append_getLast? {α : Type} (l : List α) : l.dropLast ++ l.getLast?.toList = l := by
  rcases eq_nil_or_concat l with hnil | ⟨first, last, hconcat⟩
  · simp [hnil]
  · simp [hconcat]

theorem Terminated.insert {b : BlockId} {copies : List OpId} (h : p.Terminated (p.code b))
    (hcode : q.code b = (p.code b).dropLast ++ copies ++ (p.code b).getLast?.toList)
    (hold : ∀ id ∈ p.code b, (q.stmt id).inst.isTerminator = (p.stmt id).inst.isTerminator)
    (hnew : ∀ id ∈ copies, (q.stmt id).inst.isTerminator = false) : q.Terminated (q.code b) := by
  obtain ⟨first, last, hlast, hterm⟩ := h.exists_last
  rw [hlast] at h hold
  have hcode' : q.code b = (first ++ copies) ++ [last] := by
    rw [hcode, hlast]
    simp
  rw [hcode']
  refine .concat (fun id hid => ?_) ?_
  · rcases mem_append.mp hid with hid | hid
    · rw [hold id (mem_append_left _ hid)]
      exact h.front hid
    · exact hnew id hid
  · rw [hold last (by simp)]
    exact hterm

/-! ### The program without the phis -/

/-- `q` has copies of temporaries for the phis `heads` of `p`, and at the ends of blocks the
`copies` that set them. -/
structure Resolves (p q : Program) (heads copies : BlockId → List OpId)
    (temp : OpId → OperandId) : Prop where
  head : ∀ b, heads b <+: p.code b
  phi : ∀ b, ∀ id ∈ heads b, (p.stmt id).inst = .phi ∧ ∃ d, (p.stmt id).dest = some d
  code : ∀ b, q.code b = (p.code b).dropLast ++ copies b ++ (p.code b).getLast?.toList
  preds : q.preds = p.preds
  resolved : ∀ b, ∀ id ∈ heads b, q.stmt id = ⟨.copy, (p.stmt id).dest, [temp id]⟩
  other : ∀ b, ∀ id ∈ p.code b, id ∉ heads b → q.stmt id = p.stmt id
  copy : ∀ b, ∀ x ∈ copies b, ∃ c, ∃ id ∈ heads c, ∃ (k : Nat) (s : OperandId),
    (p.preds c)[k]? = some b ∧ (p.stmt id).sources[k]? = some s ∧
      q.stmt x = ⟨.copy, some (temp id), [s]⟩
  set : ∀ c, ∀ id ∈ heads c, ∀ (k : Nat) b s, (p.preds c)[k]? = some b →
    (p.stmt id).sources[k]? = some s → ∃ x ∈ copies b, q.stmt x = ⟨.copy, some (temp id), [s]⟩
  local_ : ∀ b, ∀ id ∈ heads b, ∃ i, q.kind (temp id) = .local_ i
  inj : ∀ b c, ∀ id ∈ heads b, ∀ e ∈ heads c, temp id = temp e → id = e
  fresh : ∀ b c, ∀ id ∈ heads b, ∀ e ∈ p.code c,
    temp id ∉ (p.stmt e).sources ∧ ¬(p.stmt e).Writes (temp id)

namespace Resolves

variable {heads copies : BlockId → List OpId} {temp : OpId → OperandId} {b c : BlockId} {id : OpId}

section

variable (h : p.Resolves q heads copies temp)

include h

theorem mem_code (hid : id ∈ heads b) : id ∈ p.code b :=
  (h.head b).subset hid

theorem mem_code_iff : id ∈ q.code b ↔ id ∈ p.code b ∨ id ∈ copies b := by
  have hlast : id ∈ p.code b ↔ id ∈ (p.code b).dropLast ∨ id ∈ (p.code b).getLast?.toList := by
    rw [← mem_append, dropLast_append_getLast?]
  rw [h.code, mem_append, mem_append]
  tauto

theorem terminated (hterm : p.Terminated (p.code b)) : q.Terminated (q.code b) := by
  refine hterm.insert (h.code b) (fun id hid => ?_) fun x hx => ?_
  · by_cases hhead : id ∈ heads b
    · rw [h.resolved b id hhead, (h.phi b id hhead).1]
      rfl
    · rw [h.other b id hid hhead]
  · obtain ⟨c, id, -, k, s, -, -, hstmt⟩ := h.copy b x hx
    rw [hstmt]
    rfl

/-- The parts of a block. -/
theorem split (hterm : p.Terminated (p.code b)) :
    ∃ mid last, p.code b = heads b ++ (mid ++ [last]) ∧
      q.code b = heads b ++ (mid ++ (copies b ++ [last])) ∧
      (p.stmt last).inst.isTerminator = true ∧
      ∀ x ∈ mid, (p.stmt x).inst.isTerminator = false := by
  obtain ⟨first, last, hcode, hlast⟩ := hterm.exists_last
  obtain ⟨rest, hrest⟩ := h.head b
  rw [hcode] at hterm
  have hcode' : heads b ++ rest = first ++ [last] := hrest.trans hcode
  rcases eq_nil_or_concat rest with rfl | ⟨mid, last', rfl⟩
  · -- the terminator is no phi
    have hmem : last ∈ heads b := by
      rw [append_nil] at hcode'
      simp [hcode']
    rw [(h.phi b last hmem).1] at hlast
    cases hlast
  · rw [concat_eq_append, ← append_assoc] at hcode'
    obtain ⟨hfirst, hlast'⟩ := append_inj' hcode' rfl
    refine ⟨mid, last, by rw [hcode, ← hfirst, append_assoc], ?_, hlast, fun x hx => ?_⟩
    · rw [h.code, hcode, ← hfirst]
      simp
    · exact hterm.front (hfirst ▸ mem_append_right _ hx)

end

theorem read_eq (hkind : q.kind = p.kind) (hty : q.ty = p.ty) (σ : State ω) (o : OperandId) :
    q.read host σ o = p.read host σ o := by
  unfold read
  rw [hkind, hty]

theorem argument_eq (hkind : q.kind = p.kind) (hty : q.ty = p.ty) (σ : State ω) (s : Stmt)
    (i : Nat) : q.argument host σ s i = p.argument host σ s i :=
  argument_map (map_id' _).symm (fun o _ => read_eq hkind hty σ o) i

theorem sourceTy_eq (hty : q.ty = p.ty) (s : Stmt) : q.sourceTy s = p.sourceTy s := by
  simp only [sourceTy, hty]

section Semantics

variable (h : p.Resolves q heads copies temp) (hs : p.Versioned)
  (hnodup : ∀ b, (p.preds b).Nodup) (hkind : q.kind = p.kind) (hty : q.ty = p.ty)

def Temporary (heads : BlockId → List OpId) (temp : OpId → OperandId) (o : OperandId) : Prop :=
  ∃ b, ∃ id ∈ heads b, o = temp id

include h

theorem source_not_temporary {e : OpId} {o : OperandId} (he : e ∈ p.code c)
    (ho : o ∈ (p.stmt e).sources) : ¬Temporary heads temp o := by
  rintro ⟨b, id, hid, rfl⟩
  exact (h.fresh b c id hid e he).1 ho

theorem dest_not_temporary {e : OpId} {o : OperandId} (he : e ∈ p.code c)
    (ho : (p.stmt e).dest = some o) : ¬Temporary heads temp o := by
  rintro ⟨b, id, hid, rfl⟩
  exact (h.fresh b c id hid e he).2 ho

include hs

omit h in
theorem eq_of_dest {e : OpId} {d : OperandId} (hid : id ∈ p.code b) (he : e ∈ p.code c)
    (hdest : (p.stmt id).dest = some d) (hdest' : (p.stmt e).dest = some d) : b = c ∧ id = e := by
  obtain ⟨i, hi⟩ := hs.dest b id hid d hdest
  exact hs.once.unique hi hid he hdest hdest'

include hkind

theorem parallel_heads (b : BlockId) : q.Parallel (heads b) where
  copy id hid := by
    obtain ⟨-, d, hd⟩ := h.phi b id hid
    obtain ⟨i, hi⟩ := hs.dest b id (h.mem_code hid) d hd
    exact ⟨d, temp id, i, by rw [h.resolved b id hid, hd], by rw [hkind, hi]⟩
  apart id hid e he o ho := by
    rw [h.resolved b e he] at ho
    obtain rfl := mem_singleton.mp ho
    rw [h.resolved b id hid]
    exact (h.fresh b b e he id (h.mem_code hid)).2
  agree id hid e he hdest := by
    obtain ⟨-, d, hd⟩ := h.phi b id hid
    rw [h.resolved b id hid, h.resolved b e he, hd] at hdest
    obtain ⟨-, rfl⟩ := eq_of_dest hs (h.mem_code hid) (h.mem_code he) hd hdest.symm
    rfl

include hnodup

omit hkind in
theorem parallel_copies (b : BlockId) : q.Parallel (copies b) where
  copy x hx := by
    obtain ⟨c, id, hid, k, s, -, -, hstmt⟩ := h.copy b x hx
    obtain ⟨i, hi⟩ := h.local_ c id hid
    exact ⟨temp id, s, i, hstmt, hi⟩
  apart x hx e he o ho := by
    obtain ⟨c, id, hid, k, s, -, -, hstmt⟩ := h.copy b x hx
    obtain ⟨c', id', hid', k', s', -, hsource, hstmt'⟩ := h.copy b e he
    rw [hstmt'] at ho
    obtain rfl := mem_singleton.mp ho
    rw [hstmt]
    rintro hwrites
    cases hwrites
    exact (h.fresh c c' id hid id' (h.mem_code hid')).1 (mem_of_getElem? hsource)
  agree x hx e he hdest := by
    obtain ⟨c, id, hid, k, s, hpred, hsource, hstmt⟩ := h.copy b x hx
    obtain ⟨c', id', hid', k', s', hpred', hsource', hstmt'⟩ := h.copy b e he
    rw [hstmt, hstmt', Option.some.injEq] at hdest
    obtain rfl := h.inj c c' id hid id' hid' hdest
    obtain ⟨-, d, hd⟩ := h.phi c id hid
    obtain ⟨rfl, -⟩ := eq_of_dest hs (h.mem_code hid) (h.mem_code hid') hd hd
    -- the block is one predecessor only
    obtain ⟨hk, hk'⟩ := List.getElem?_eq_some_iff.mp hpred
    obtain ⟨hl, hl'⟩ := List.getElem?_eq_some_iff.mp hpred'
    obtain rfl : k = k' := (List.Nodup.getElem_inj_iff (hnodup c)).mp (hk'.trans hl'.symm)
    rw [hsource, Option.some.injEq] at hsource'
    rw [hstmt, hstmt', hsource']

end Semantics

/-! ### Entering a block -/

section Enter

variable (h : p.Resolves q heads copies temp) (hs : p.Versioned)

include h

/-- A phi that stays is found as before. -/
theorem phiSource?_eq {o : OperandId} (ho : ∀ id ∈ heads b, (p.stmt id).dest ≠ some o) (k : Nat) :
    q.phiSource? b k o = p.phiSource? b k o := by
  unfold phiSource?
  have hcopies : ((copies b).findSome? fun id =>
      if (q.stmt id).inst = .phi ∧ (q.stmt id).dest = some o then (q.stmt id).sources[k]?
      else none) = none := by
    refine findSome?_eq_none_iff.mpr fun x hx => if_neg fun hphi => ?_
    obtain ⟨c, id, -, l, s, -, -, hstmt⟩ := h.copy b x hx
    rw [hstmt] at hphi
    cases hphi.1
  rw [h.code, findSome?_append, findSome?_append, hcopies, Option.or_none, ← findSome?_append]
  rw [dropLast_append_getLast?]
  refine findSome?_congr fun id hid => ?_
  by_cases hhead : id ∈ heads b
  · have hcopy : (q.stmt id).inst = .copy := by rw [h.resolved b id hhead]
    rw [if_neg fun hphi => by simp [hcopy] at hphi, if_neg fun hphi => ho id hhead hphi.2]
  · rw [h.other b id hid hhead]

/-- Nothing on entry writes a temporary. -/
theorem phiSource?_temporary {o : OperandId} (ho : Temporary heads temp o) (k : Nat) :
    q.phiSource? b k o = none := by
  rw [h.phiSource?_eq fun id hid hdest => h.dest_not_temporary (h.mem_code hid) hdest ho]
  refine phiSource?_eq_none ?_
  rintro ⟨e, he, hdest⟩
  exact h.dest_not_temporary he hdest ho

/-- When a block is entered, the temporaries of its phis hold the values for that edge. -/
structure Arrived (p : Program) (heads : BlockId → List OpId) (temp : OpId → OperandId)
    (host : Host ω) (Same : ω → ω → Prop) (pred : Option BlockId) (b : BlockId)
    (σ σ' : State ω) : Prop where
  apart : Apart Same (Temporary heads temp) σ σ'
  edge : pred = none ∧ (∀ o, σ.locals o = 0 ∧ σ'.locals o = 0) ∨
    ∃ c k, pred = some c ∧ (p.preds b).idxOf? c = some k ∧
    ∀ id ∈ heads b, ∀ s, (p.stmt id).sources[k]? = some s → σ'.locals (temp id) = p.read host σ s

variable {Same : ω → ω → Prop} (hb : host.Respects Same) (hkind : q.kind = p.kind)
  (hty : q.ty = p.ty) {pred : Option BlockId} {σ σ' : State ω}

include hs hb hkind hty

/-- After the copies at the head of the block, the phis have their values. -/
theorem enter (ha : Arrived p heads temp host Same pred b σ σ') (visit : Nat) (rest : List OpId) :
    ∃ τ, q.runCode host visit (heads b ++ rest) (q.enter host pred b σ') =
        q.runCode host visit rest τ ∧
      Apart Same (Temporary heads temp) (p.enter host pred b σ) τ := by
  rcases ha.edge with ⟨rfl, hzero⟩ | ⟨c, k, rfl, hk, hvalue⟩
  · -- no edge leads to the entry at first, and the temporaries are zero like all locals
    obtain ⟨τ, hrun, hworld, hcopied, hother⟩ :=
      (h.parallel_heads hs hkind b).run host visit rest σ'
    refine ⟨τ, hrun, hworld ▸ ha.apart.world, fun o _ => (hzero o).1.trans (Eq.symm ?_)⟩
    by_cases hphi : ∃ id ∈ heads b, (p.stmt id).dest = some o
    · obtain ⟨id, hid, hdest⟩ := hphi
      obtain ⟨i, hi⟩ := h.local_ b id hid
      rw [hcopied id hid o (temp id) (by rw [h.resolved b id hid, hdest]), read, hi]
      exact (hzero (temp id)).2
    · rw [hother o fun id hid hwrites => hphi ⟨id, hid, by
        rw [h.resolved b id hid] at hwrites
        exact hwrites⟩]
      exact (hzero o).2
  · obtain ⟨τ, hrun, hworld, hcopied, hother⟩ := (h.parallel_heads hs hkind b).run host
      visit rest (q.enter host (some c) b σ')
    have hk' : (q.preds b).idxOf? c = some k := by rw [h.preds, hk]
    refine ⟨τ, hrun, ?_, fun o ho => ?_⟩
    · rw [hworld, world_enter, world_enter]
      exact ha.apart.world
    · by_cases hphi : ∃ id ∈ heads b, (p.stmt id).dest = some o
      · obtain ⟨id, hid, hdest⟩ := hphi
        have hmem := h.mem_code hid
        have hinst := (h.phi b id hid).1
        obtain ⟨s, hsource⟩ : ∃ s, (p.stmt id).sources[k]? = some s := by
          have hlt := (idxOf?_eq_some_iff.mp hk).1
          rw [← hs.arity b id hmem hinst] at hlt
          exact ⟨_, getElem?_eq_getElem hlt⟩
        have htemp : Temporary heads temp (temp id) := ⟨b, id, hid, rfl⟩
        have hread : q.read host (q.enter host (some c) b σ') (temp id) = σ'.locals (temp id) := by
          obtain ⟨i, hi⟩ := h.local_ b id hid
          rw [read, hi]
          exact q.locals_enter_of_none host hk' σ' (h.phiSource?_temporary htemp k)
        rw [hcopied id hid o (temp id) (by rw [h.resolved b id hid, hdest]), hread,
          hvalue id hid s hsource, p.locals_enter_of_some host hk σ
            ((Program.phiSource?_eq hs hmem hinst hdest k).trans hsource)]
      · have hnot : ∀ id ∈ heads b, (p.stmt id).dest ≠ some o := fun id hid hdest =>
          hphi ⟨id, hid, hdest⟩
        rw [hother o fun id hid hwrites => hnot id hid (by
          rw [h.resolved b id hid] at hwrites
          exact hwrites)]
        have hsame := h.phiSource?_eq hnot k
        cases hsource : p.phiSource? b k o with
        | none =>
          rw [p.locals_enter_of_none host hk σ hsource,
            q.locals_enter_of_none host hk' σ' (hsame.trans hsource)]
          exact ha.apart.locals o ho
        | some s =>
          rw [p.locals_enter_of_some host hk σ hsource,
            q.locals_enter_of_some host hk' σ' (hsame.trans hsource), read_eq hkind hty]
          obtain ⟨e, he, -, -, hsome⟩ := exists_of_phiSource? hsource
          exact ha.apart.read hb (h.source_not_temporary he (mem_of_getElem? hsome))

end Enter

/-! ### Running a block -/

section Run

variable (h : p.Resolves q heads copies temp) (hs : p.Versioned)
  {Same : ω → ω → Prop} (hb : host.Respects Same) (hkind : q.kind = p.kind) (hty : q.ty = p.ty)
  {σ σ' : State ω}

include h hb hkind hty

/-- The operations between the phis and the end do the same in both programs. -/
theorem run_mid {mid : List OpId} (hmid : ∀ x ∈ mid, x ∈ p.code b ∧ x ∉ heads b)
    (hterm : ∀ x ∈ mid, (p.stmt x).inst.isTerminator = false)
    (ha : Apart Same (Temporary heads temp) σ σ') (visit : Nat) (rest rest' : List OpId) :
    ∃ τ τ', p.runCode host visit (mid ++ rest) σ = p.runCode host visit rest τ ∧
      q.runCode host visit (mid ++ rest') σ' = q.runCode host visit rest' τ' ∧
      Apart Same (Temporary heads temp) τ τ' := by
  induction mid generalizing σ σ' with
  | nil => exact ⟨σ, σ', rfl, rfl, ha⟩
  | cons id mid ih =>
    obtain ⟨hid, hnot⟩ := hmid id (.head _)
    have hstmt := h.other b id hid hnot
    have hterm' := hterm id (.head _)
    have hstep : Apart Same (Temporary heads temp) (p.execute host ⟨visit, id⟩ σ)
        (p.execute host ⟨visit, id⟩ σ') :=
      ha.execute hb fun o ho => h.source_not_temporary hid ho
    obtain ⟨τ, τ', hrun, hrun', hafter⟩ := ih (fun x hx => hmid x (.tail _ hx))
      (fun x hx => hterm x (.tail _ hx)) hstep
    refine ⟨τ, τ', ?_, ?_, hafter⟩
    · rw [cons_append, runCode, p.flow?_eq_none host σ hterm']
      exact hrun
    · rw [cons_append, runCode, q.flow?_eq_none host σ' (by rw [hstmt]; exact hterm')]
      have hexec : q.execute host ⟨visit, id⟩ σ' = p.execute host ⟨visit, id⟩ σ' := by
        simp only [execute, hstmt, argument_eq hkind hty, sourceTy_eq hty, destTy, assign,
          hkind, hty]
      rw [hexec]
      exact hrun'

include hs

/-- At the end of a block the temporaries of the next one are set. -/
theorem run_block (hnodup : ∀ b, (p.preds b).Nodup) (hreach : p.Reachable b)
    {pred : Option BlockId} (ha : Arrived p heads temp host Same pred b σ σ') (visit : Nat) :
    ∃ flow τ τ', p.runCode host visit (p.code b) (p.enter host pred b σ) = (some flow, τ) ∧
      q.runCode host visit (q.code b) (q.enter host pred b σ') = (some flow, τ') ∧
      Apart Same (Temporary heads temp) τ τ' ∧
      ∀ next, flow = .goto next → Arrived p heads temp host Same (some b) next τ τ' := by
  have hterm := hs.terminated b hreach
  obtain ⟨mid, last, hcode, hcode', hlast, hmid⟩ := h.split hterm
  have hmem : ∀ x, x ∈ mid ++ [last] → x ∈ p.code b := fun x hx => by
    rw [hcode]
    exact mem_append_right _ hx
  have hnot : ∀ x ∈ mid ++ [last], x ∉ heads b := by
    intro x hx hhead
    obtain ⟨-, d, hd⟩ := h.phi b x hhead
    obtain ⟨i, hi⟩ := hs.dest b x (h.mem_code hhead) d hd
    obtain ⟨l, r, hl⟩ := append_of_mem hx
    have hsplit : p.code b = (heads b ++ l) ++ x :: r := by
      rw [hcode, hl, append_assoc]
    exact hs.once.dest_ne hi hsplit hd (mem_append_left _ hhead) hd
  -- the phis, what stands between them and the copies, the copies, the terminator
  obtain ⟨τ₁, henter, hapart₁⟩ := h.enter hs hb hkind hty ha visit (mid ++ (copies b ++ [last]))
  obtain ⟨τ, τ₂, hrun, hrun', hapart₂⟩ := h.run_mid hb hkind hty
    (fun x hx => ⟨hmem x (mem_append_left _ hx), hnot x (mem_append_left _ hx)⟩) hmid
    hapart₁ visit [last] (copies b ++ [last])
  obtain ⟨τ', hcopies, hworld, hset, hkeep⟩ := (h.parallel_copies hs hnodup b).run host visit
    [last] τ₂
  have hlastmem := hmem last (by simp)
  have hapart : Apart Same (Temporary heads temp) τ τ' := by
    refine ⟨hworld ▸ hapart₂.world, fun o ho => ?_⟩
    rw [hkeep o fun x hx hwrites => ho ?_]
    · exact hapart₂.locals o ho
    · obtain ⟨c, id, hid, k, s, -, -, hstmt⟩ := h.copy b x hx
      rw [hstmt] at hwrites
      cases hwrites
      exact ⟨c, id, hid, rfl⟩
  obtain ⟨flow, hflow⟩ : ∃ flow, p.flow? host τ last = some flow :=
    Option.isSome_iff_exists.mp ((p.flow?_isSome host τ last).trans hlast)
  have hflow' : q.flow? host τ' last = some flow := by
    have hstmt := h.other b last hlastmem (hnot last (by simp))
    rw [← hflow, flow?, hstmt]
    simp only [argument_eq hkind hty, sourceTy_eq hty]
    exact (hapart.flow? hb fun o ho => h.source_not_temporary hlastmem ho).symm
  have hp : p.runCode host visit (p.code b) (p.enter host pred b σ) = (some flow, τ) := by
    rw [hcode, runCode_phis fun id hid => (h.phi b id hid).1, hrun, runCode, hflow]
  have hq : q.runCode host visit (q.code b) (q.enter host pred b σ') = (some flow, τ') := by
    rw [hcode', henter, hrun', hcopies, runCode, hflow']
  refine ⟨flow, τ, τ', hp, hq, hapart, ?_⟩
  rintro next rfl
  obtain ⟨k, hk, hpred⟩ := p.exists_idxOf?_preds (hs.preds b next hreach (hterm.goto_successor hp))
  refine ⟨hapart, .inr ⟨b, k, rfl, hk, fun id hid s hsource => ?_⟩⟩
  obtain ⟨x, hx, hstmt⟩ := h.set next id hid k b s hpred hsource
  rw [hset x hx (temp id) s hstmt, read_eq hkind hty]
  exact (hapart₂.read hb (h.source_not_temporary (h.mem_code hid) (mem_of_getElem? hsource))).symm

end Run

/-- No host can tell whether phis have been replaced by copies. -/
theorem similar (h : p.Resolves q heads copies temp) (hs : p.Versioned)
    (hnodup : ∀ b, (p.preds b).Nodup) (hkind : q.kind = p.kind) (hty : q.ty = p.ty)
    {Same : ω → ω → Prop} (hb : host.Respects Same) (w : ω) (n : Nat) :
    Outcome.Similar Same (p.run host w n) (q.run host w n) := by
  suffices hall : (∃ pred b σ σ', p.run host w n = .running pred b σ ∧
      q.run host w n = .running pred b σ' ∧ p.Reachable b ∧
      Arrived p heads temp host Same pred b σ σ') ∨
      ∃ how w₁ w₂, p.run host w n = .left how w₁ ∧ q.run host w n = .left how w₂ ∧ Same w₁ w₂ by
    rcases hall with ⟨pred, b, σ, σ', hp, hq, -, ha⟩ | ⟨how, w₁, w₂, hp, hq, hsame⟩
    · rw [hp, hq]
      exact .running ha.apart.world
    · rw [hp, hq]
      exact .left hsame
  induction n with
  | zero =>
    refine .inl ⟨none, Function.entry, _, _, rfl, rfl, .entry, ?_, .inl ⟨rfl, fun _ => ⟨rfl, rfl⟩⟩⟩
    exact ⟨hb.equivalence.refl _, fun _ _ => rfl⟩
  | succ n ih =>
    rw [Program.run, Program.run]
    rcases ih with ⟨pred, b, σ, σ', hp, hq, hreach, ha⟩ | ⟨how, w₁, w₂, hp, hq, hsame⟩
    · obtain ⟨flow, τ, τ', hrun, hrun', hapart, hnext⟩ :=
        h.run_block hs hb hkind hty hnodup hreach ha n
      rw [hp, hq, advance, advance, hrun, hrun']
      cases flow with
      | goto next =>
        have hsucc := (hs.terminated b hreach).goto_successor hrun
        exact .inl ⟨some b, next, τ, τ', rfl, rfl, .step hreach hsucc, hnext next rfl⟩
      | leave how => exact .inr ⟨how, τ.world, τ'.world, rfl, rfl, hapart.world⟩
    · rw [hp, hq]
      exact .inr ⟨how, w₁, w₂, rfl, rfl, hsame⟩

end Resolves

end Dynarec.IR.Program
