import Dynarec.Proofs.IR.Optimizer

/-!
# Functions at rest

A round of the optimizer that counts no change leaves the function as it is. So unless all rounds
were used up the optimizer ends in a function in which no copy can be forwarded, and then phis are
in front of everything else.
-/

namespace Dynarec.IR.Function

open List

variable {f : Function} {b : BlockId} {id : OpId}

/-! ### Passes that change nothing -/

def Counts (change : Nat × Function → OpId → Nat × Function) : Prop :=
  ∀ s id, change s id = s ∨ (change s id).1 = s.1 + 1

section Counts

variable {change : Nat × Function → OpId → Nat × Function} (hchange : Counts change)

include hchange

theorem Counts.le_foldl (ids : List OpId) (s : Nat × Function) : s.1 ≤ (ids.foldl change s).1 := by
  induction ids generalizing s with
  | nil => exact le_rfl
  | cons id ids ih =>
    have hrest := ih (change s id)
    rw [foldl_cons]
    rcases hchange s id with h | h
    · rwa [h] at hrest ⊢
    · omega

/-- A pass that counted nothing did nothing, at no operation. -/
theorem Counts.foldl_quiet {ids : List OpId} {s : Nat × Function}
    (h : (ids.foldl change s).1 = s.1) :
    ids.foldl change s = s ∧ ∀ id ∈ ids, change s id = s := by
  induction ids with
  | nil => exact ⟨rfl, forall_mem_nil _⟩
  | cons id ids ih =>
    rw [foldl_cons] at h ⊢
    have hle := hchange.le_foldl ids (change s id)
    rcases hchange s id with hid | hid
    · rw [hid] at h ⊢
      obtain ⟨hfold, hall⟩ := ih h
      exact ⟨hfold, forall_mem_cons.mpr ⟨hid, hall⟩⟩
    · omega

end Counts

theorem counts_propagateCopy : Counts propagateCopy := by
  rintro ⟨n, f⟩ id
  unfold propagateCopy
  dsimp only
  split
  · exact .inl rfl
  · split
    · split
      · exact .inr rfl
      · exact .inl rfl
    · split
      · split
        · exact .inr rfl
        · exact .inl rfl
      · exact .inl rfl
    · exact .inl rfl

theorem counts_foldConstant : Counts foldConstant := by
  rintro ⟨n, f⟩ id
  unfold foldConstant
  dsimp only
  split
  · exact .inr rfl
  · exact .inl rfl

theorem sweep_quiet {fuel : Nat} {work : List OpId} {s : Nat × Function}
    (h : (sweep fuel work s).1 = s.1) : sweep fuel work s = s := by
  obtain ⟨ids, hcount, hdrops⟩ := sweep_drops fuel work s
  obtain rfl : ids = [] := eq_nil_of_length_eq_zero (by omega)
  obtain ⟨n, f⟩ := s
  generalize sweep fuel work (n, f) = t at h hdrops
  obtain ⟨m, g⟩ := t
  cases hdrops
  exact Prod.ext h rfl

/-- The optimizer ends at rest or after its last round. -/
theorem rest_or_rounds (rounds : Nat) (s : OptimizerStats) (f : Function) :
    (optimizeRounds rounds (s, f)).2.propagateCopies.1 = 0 ∨
      (optimizeRounds rounds (s, f)).1.rounds = s.rounds + rounds := by
  induction rounds generalizing s f with
  | zero => exact .inr rfl
  | succ rounds ih =>
    rw [optimizeRounds]
    dsimp only
    split
    next hsame =>
      left
      simp only [OptimizerStats.changes] at hsame
      have hcopies : f.propagateCopies.1 = 0 := by omega
      have hfolded : f.propagateCopies.2.foldConstants.1 = 0 := by omega
      have hremoved : f.propagateCopies.2.foldConstants.2.eliminateDeadCode.1 = 0 := by omega
      have hf : f.propagateCopies = (0, f) := (counts_propagateCopy.foldl_quiet hcopies).1
      rw [hf] at hfolded hremoved ⊢
      have hf' : f.foldConstants = (0, f) := (counts_foldConstant.foldl_quiet hfolded).1
      rw [hf'] at hremoved ⊢
      have hf'' : f.eliminateDeadCode = (0, f) := sweep_quiet hremoved
      rw [hf'']
      exact hcopies
    next =>
      refine (ih _ _).imp_right fun hrounds => hrounds.trans ?_
      dsimp only
      omega

/-! ### Phis in functions at rest -/

theorem mem_allOperations (h : f.WellFormed) (hid : id ∈ f.program.code b) : id ∈ f.allOperations :=
  mem_flatMap.mpr ⟨b, mem_blockIds.mpr (h.lt_blocks hid), hid⟩

section

variable (h : f.WellFormed) (hs : f.program.SingleAssignment)

include h hs

/-- The definitions of a local are just its one definition. -/
theorem WellFormed.defs_eq {d : OperandId}
    (hid : id ∈ f.program.code b) (hdest : (f.program.stmt id).dest = some d) :
    (f.operand d).defs = [id] := by
  obtain ⟨i, hkind⟩ := hs.dest b id hid d hdest
  have hmem : ∀ e, e ∈ (f.operand d).defs ↔ e = id := by
    intro e
    rw [h.tracked.defs]
    constructor
    · rintro ⟨hlive, he⟩
      exact (hs.once.unique hkind (h.mem_code_iff.mpr ⟨hlive, rfl⟩) hid he hdest).2
    · rintro rfl
      exact ⟨h.live_of_mem hid, hdest⟩
  exact perm_singleton.mp
    ((perm_ext_iff_of_nodup (h.tracked.nodup_defs d) (nodup_singleton _)).mpr
      fun e => by rw [hmem, mem_singleton])

/-- In a function at rest no copy has a result and a source. -/
theorem WellFormed.not_copy_of_rest (hrest : f.propagateCopies.1 = 0) (hid : id ∈ f.program.code b)
    (hcarries : (f.program.stmt id).Carries) : (f.program.stmt id).inst = .phi := by
  obtain ⟨hdest, hphi | ⟨hcopy, hsources⟩⟩ := hcarries
  · exact hphi
  obtain ⟨d, hdest⟩ := Option.isSome_iff_exists.mp hdest
  obtain ⟨o, ho⟩ : ∃ o, (f.program.stmt id).sources[0]? = some o := by
    obtain ⟨o, rest, heq⟩ := exists_cons_of_ne_nil hsources
    exact ⟨o, by rw [heq]; rfl⟩
  -- such a copy would be forwarded, which counts
  have hforward : f.canForward d o = true := by
    obtain ⟨i, hkind⟩ := hs.dest b id hid d hdest
    have hlocal : (f.operand d).local? = some i := by
      have hkind : (f.operand d).kind = .local_ i := hkind
      simp [Operand.local?, hkind]
    have hty : (f.operand o).ty = (f.operand d).ty := (hs.typed b id hid).copy hcopy d o hdest ho
    simp [canForward, h.defs_eq hs hid hdest, hlocal, hty]
  have hquiet := (counts_propagateCopy.foldl_quiet hrest).2 id (mem_allOperations h hid)
  have hlive := h.live_of_mem hid
  have hcopy : (f.operation id).inst = .copy := hcopy
  have hdest : (f.operation id).dest = some d := hdest
  have ho : (f.operation id).source? 0 = some o := ho
  have hcount := congrArg Prod.fst hquiet
  simp [propagateCopy, hlive, hcopy, hdest, ho, hforward] at hcount

theorem WellFormed.phisFirst_of_rest (hlead : f.program.PhisLead)
    (hrest : f.propagateCopies.1 = 0) : f.program.PhisFirst := by
  intro b done id rest hcode hphi x hx
  have hmem : x ∈ f.program.code b := by
    rw [hcode]
    exact mem_append_left _ hx
  exact h.not_copy_of_rest hs hrest hmem (hlead b done id rest hcode hphi x (.tail _ hx))

theorem stmt_drops {ids : List OpId} (hdrops : Drops f ids g) :
    g.program.stmt = f.program.stmt := by
  induction hdrops with
  | nil => rfl
  | @cons f g id ids hdead _ ih =>
    have hremove := optimizes_remove h hs hdead
    have hlive := (isDead_iff.mp hdead).1
    have hprog := (h.program_remove_eq (h.mem_code_iff.mpr ⟨hlive, rfl⟩)).2
    refine (ih hremove.wf hremove.form).trans ?_
    rw [hprog]
    rfl

/-- Phis are in front of everything else after optimization, unless it ran out of rounds. -/
theorem phisFirst_optimize (hlead : f.program.PhisLead) (hfirst : f.program.PhisFirst)
    (tier : Tier) : (f.optimize tier).2.program.PhisFirst ∨
      tier = .optimized ∧ (f.optimize tier).1.rounds = maxRounds ∧
        (f.optimize tier).2.propagateCopies.1 ≠ 0 := by
  cases tier with
  | fast =>
    left
    obtain ⟨ids, -, hdrops⟩ := sweep_drops f.sweepBound f.allOperations.reverse (0, f)
    exact (optimizes_drops h hs hdrops).reduces.phisFirst (stmt_drops h hs hdrops) hfirst
  | optimized =>
    have heq : f.optimize .optimized = optimizeRounds maxRounds ({}, f) := rfl
    rw [heq]
    have hopt := optimizes_rounds h hs maxRounds {}
    by_cases hrest : (optimizeRounds maxRounds ({}, f)).2.propagateCopies.1 = 0
    · left
      exact hopt.wf.phisFirst_of_rest hopt.form (hopt.reduces.phisLead hlead) hrest
    · right
      have hrounds := (rest_or_rounds maxRounds {} f).resolve_left hrest
      exact ⟨rfl, hrounds.trans (Nat.zero_add _), hrest⟩

end

end Dynarec.IR.Function
