import Dynarec.IR.Liveness
import Dynarec.Proofs.IR.Paths
import Mathlib.Data.Finset.Prod
import Mathlib.Data.List.Range

/-!
# Liveness is exact

A local is exposed at a block if some way from the start of the block comes to a reader of the local
before it passes a writer. Backward iteration only ever adds locals that are exposed, and it ends in
a solution of the flow equations, which has them all.
-/

namespace Dynarec.IR

open BlockEffect LocalSet Finset

namespace LocalSet

variable (s t : LocalSet) (i j n : Nat)

@[simp] theorem contains_ofCapacity : (ofCapacity n).contains i = false := by
  simp [contains, ofCapacity]

@[simp] theorem words_insert : (s.insert i).words = s.words := by
  unfold insert
  split <;> rfl

@[simp] theorem words_erase : (s.erase i).words = s.words := by
  unfold erase
  split <;> rfl

theorem contains_insert :
    (s.insert i).contains j = (s.contains j || decide (j = i ∧ i < s.capacity)) := by
  unfold insert
  split
  next h =>
    simp only [contains, Nat.testBit_or, Nat.one_shiftLeft, Nat.testBit_two_pow, h, and_true,
      eq_comm]
  next h => simp [h]

@[simp] theorem contains_erase : (s.erase i).contains j = (s.contains j && !decide (j = i)) := by
  unfold erase
  split
  next h =>
    by_cases hj : j = i
    · subst hj
      have h : s.bits.testBit j = true := h
      simp [contains, h]
    · have hne : i ≠ j := fun he => hj he.symm
      simp [contains, Nat.one_shiftLeft, Nat.testBit_two_pow_of_ne hne, hj]
  next h =>
    by_cases hj : j = i
    · subst hj
      simpa using h
    · simp [hj]

theorem contains_union :
    (s.union t).contains i = (s.contains i || (decide (i < s.capacity) && t.contains i)) := by
  simp [union, contains, Nat.one_shiftLeft]

@[simp] theorem contains_diff : (s.diff t).contains i = (s.contains i && !t.contains i) := by
  unfold diff contains
  simp only [Nat.testBit_xor, Nat.testBit_and]
  cases s.bits.testBit i <;> simp

variable {s t}

theorem ext_contains (hwords : s.words = t.words) (h : ∀ i, s.contains i = t.contains i) :
    s = t := by
  cases s
  cases hwords
  exact congrArg _ (Nat.eq_of_testBit_eq h)

/-- A set with room for the locals below `n` that holds no local past its capacity. -/
structure Fits (n : Nat) (s : LocalSet) : Prop where
  words : s.words = (ofCapacity n).words
  lt : ∀ i, s.contains i = true → i < s.capacity

variable {n i}

theorem fits_ofCapacity (n : Nat) : (ofCapacity n).Fits n := ⟨rfl, by simp⟩

theorem Fits.capacity_eq (h : s.Fits n) : s.capacity = (ofCapacity n).capacity := by
  rw [capacity, h.words, capacity]

theorem capacity_bounds (n : Nat) :
    n ≤ (ofCapacity n).capacity ∧ (ofCapacity n).capacity < n + 64 := by
  simp only [capacity, ofCapacity]
  omega

section

variable (h : s.Fits n)

include h

theorem Fits.insert (i : Nat) : (s.insert i).Fits n where
  words := by rw [words_insert, h.words]
  lt j hj := by
    rw [contains_insert, Bool.or_eq_true, decide_eq_true_eq] at hj
    rw [capacity, words_insert]
    rcases hj with hj | ⟨rfl, hlt⟩
    · exact h.lt j hj
    · exact hlt

theorem Fits.erase (i : Nat) : (s.erase i).Fits n where
  words := by rw [words_erase, h.words]
  lt j hj := by
    rw [contains_erase, Bool.and_eq_true] at hj
    rw [capacity, words_erase]
    exact h.lt j hj.1

theorem Fits.union (t : LocalSet) : (s.union t).Fits n where
  words := h.words
  lt j hj := by
    rw [contains_union, Bool.or_eq_true, Bool.and_eq_true, decide_eq_true_eq] at hj
    rcases hj with hj | hj
    · exact h.lt j hj
    · exact hj.1

theorem Fits.diff (t : LocalSet) : (s.diff t).Fits n where
  words := h.words
  lt j hj := by
    rw [contains_diff, Bool.and_eq_true] at hj
    exact h.lt j hj.1

theorem Fits.contains_insert (hi : i < n) (j : Nat) : (s.insert i).contains
    j = (s.contains j || decide (j = i)) := by
  have hlt : i < s.capacity := by
    rw [h.capacity_eq]
    exact hi.trans_le (capacity_bounds n).1
  simp [LocalSet.contains_insert, hlt]

theorem Fits.contains_union (ht : t.Fits n) (i : Nat) : (s.union t).contains
    i = (s.contains i || t.contains i) := by
  rw [LocalSet.contains_union]
  by_cases hi : i < s.capacity
  · simp [hi]
  · have hti : t.contains i = false := by
      rw [← Bool.not_eq_true]
      intro hc
      exact hi (h.capacity_eq ▸ ht.capacity_eq ▸ ht.lt i hc)
    simp [hti]

end

end LocalSet

/-! ### Exposed locals -/

theorem Operand.local?_eq_some {o : Operand} {l : Nat} :
    o.local? = some l ↔ o.kind = .local_ l := by
  unfold local?
  split
  next i heq => simp [heq]
  next hne => exact ⟨fun h => absurd h (by simp), fun h => absurd h (hne l)⟩

namespace Function

variable (f : Function)

def Reads (id : OpId) (l : Nat) : Prop :=
  ∃ o ∈ (f.operation id).sources, (f.operand o).local? = some l

def Writes (id : OpId) (l : Nat) : Prop :=
  ∃ d, (f.operation id).dest = some d ∧ (f.operand d).local? = some l

/-- Some operation of a list reads the local, and none before it writes the local. -/
def ReadsFirst (l : Nat) : List OpId → Prop
  | [] => False
  | id :: rest => f.Reads id l ∨ ¬f.Writes id l ∧ ReadsFirst l rest

/-- Some way from the start of a block comes to a reader of the local, past no writer. -/
inductive Exposed (l : Nat) : BlockId → Prop
  | read {b : BlockId} (h : f.ReadsFirst l (f.blockOperations b)) : Exposed l b
  | pass {b c : BlockId} (hb : ∀ id ∈ f.blockOperations b, ¬f.Writes id l)
      (hc : c ∈ f.successors b) (h : Exposed l c) : Exposed l b

/-- On every path from the entry a local is written before it is read. -/
def DefinesBeforeUse : Prop := ∀ l, ¬f.Exposed l entry

def LocalsInRange : Prop :=
  ∀ b, ∀ id ∈ f.blockOperations b, ∀ l, f.Reads id l ∨ f.Writes id l → l < f.localCount

variable {f}

theorem ReadsFirst.exists_reads {l : Nat} {ids : List OpId} (h : f.ReadsFirst l ids) :
    ∃ id ∈ ids, f.Reads id l := by
  induction ids with
  | nil => exact h.elim
  | cons id rest ih =>
    rcases h with hread | ⟨-, hrest⟩
    · exact ⟨id, .head _, hread⟩
    · obtain ⟨x, hx, hread⟩ := ih hrest
      exact ⟨x, .tail _ hx, hread⟩

theorem WellFormed.localsInRange (h : f.WellFormed) : f.LocalsInRange := by
  have hlocal := h.interned.local_lt
  rintro b id hid l (⟨o, ho, hl⟩ | ⟨d, hd, hl⟩)
  · exact hlocal o l (h.source_lt hid ho) (Operand.local?_eq_some.mp hl)
  · exact hlocal d l (h.dest_lt hid hd) (Operand.local?_eq_some.mp hl)

theorem Exposed.lt {l : Nat} {b : BlockId} (h : f.Exposed l b) (hf : f.LocalsInRange) :
    l < f.localCount := by
  induction h with
  | read h =>
    obtain ⟨id, hid, hread⟩ := h.exists_reads
    exact hf _ id hid l (.inl hread)
  | pass _ _ _ ih => exact ih

end Function

variable {f : Function}

/-! ### Effects of blocks -/

namespace BlockEffect

variable {e : BlockEffect} {l : Nat} {b : BlockId}

structure Fits (f : Function) (e : BlockEffect) : Prop where
  uses : e.uses.Fits f.localCount
  defs : e.defs.Fits f.localCount

section

variable (h : e.Fits f)

include h

theorem Fits.read (o : OperandId) : (e.read f o).Fits f := by
  unfold BlockEffect.read
  split
  · split
    · exact h
    · exact ⟨h.uses.insert _, h.defs⟩
  · exact h

theorem Fits.reads (sources : List OperandId) : (sources.foldl (BlockEffect.read f) e).Fits f :=
  List.foldlRecOn sources _ h fun _ he o _ => he.read o

theorem Fits.write (dest : Option OperandId) : (e.write f dest).Fits f := by
  unfold BlockEffect.write
  split
  · exact ⟨h.uses, h.defs.insert _⟩
  · exact h

omit h in
@[simp] theorem defs_read (e : BlockEffect) (o : OperandId) : (e.read f o).defs = e.defs := by
  unfold read
  split
  · split <;> rfl
  · rfl

omit h in
@[simp] theorem defs_reads (e : BlockEffect) (sources : List OperandId) :
    (sources.foldl (read f) e).defs = e.defs := by
  induction sources generalizing e with
  | nil => rfl
  | cons o sources ih => rw [List.foldl_cons, ih, defs_read]

theorem uses_reads {sources : List OperandId}
    (hlt : ∀ o ∈ sources, ∀ i, (f.operand o).local? = some i → i < f.localCount) (l : Nat) :
    (sources.foldl (read f) e).uses.contains l = true ↔
      e.uses.contains l = true ∨
        e.defs.contains l = false ∧ ∃ o ∈ sources, (f.operand o).local? = some l := by
  induction sources generalizing e with
  | nil => simp
  | cons o sources ih =>
    rw [List.foldl_cons, ih (h.read o) fun p hp => hlt p (.tail _ hp), defs_read]
    have hread : (e.read f o).uses.contains l = true ↔
        e.uses.contains l = true ∨ e.defs.contains l = false ∧ (f.operand o).local? = some l := by
      unfold read
      split
      next i hi =>
        have hilt := hlt o (.head _) i hi
        rw [hi, Option.some.injEq]
        split
        next hdef =>
          constructor
          · exact .inl
          · rintro (hu | ⟨hd, rfl⟩)
            · exact hu
            · rw [hdef] at hd
              cases hd
        next hdef =>
          rw [h.uses.contains_insert hilt, Bool.or_eq_true, decide_eq_true_eq]
          refine or_congr_right ⟨?_, fun hl => hl.2.symm⟩
          rintro rfl
          exact ⟨by simpa using hdef, rfl⟩
      next hi => simp [hi]
    rw [hread, or_assoc, ← and_or_left]
    simp only [List.mem_cons, exists_eq_or_imp]

theorem contains_write {dest : Option OperandId}
    (hlt : ∀ d, dest = some d → ∀ i, (f.operand d).local? = some i → i < f.localCount) (l : Nat) :
    (e.write f dest).defs.contains l = true ↔
      e.defs.contains l = true ∨ ∃ d, dest = some d ∧ (f.operand d).local? = some l := by
  unfold write
  split
  next i hi =>
    obtain ⟨d, hd, hdi⟩ := Option.bind_eq_some_iff.mp hi
    simp only [h.defs.contains_insert (hlt d hd i hdi), Bool.or_eq_true, decide_eq_true_eq, hd,
      Option.some.injEq, exists_eq_left', hdi, eq_comm (a := l)]
  next hi =>
    constructor
    · exact .inl
    · rintro (hl | ⟨d, rfl, hd⟩)
      · exact hl
      · simp [hd] at hi

omit h in
@[simp] theorem uses_write (e : BlockEffect) (dest : Option OperandId) :
    (e.write f dest).uses = e.uses := by
  unfold write
  split <;> rfl

theorem Fits.steps (ids : List OpId) : (ids.foldl (BlockEffect.step f) e).Fits f :=
  List.foldlRecOn ids _ h fun _ he _ _ => (he.reads _).write _

/-- The sets of an effect after some operations. -/
theorem contains_steps {ids : List OpId}
    (hlt : ∀ id ∈ ids, ∀ l, f.Reads id l ∨ f.Writes id l → l < f.localCount) :
    ((ids.foldl (step f) e).uses.contains l = true ↔
      e.uses.contains l = true ∨ e.defs.contains l = false ∧ f.ReadsFirst l ids) ∧
    ((ids.foldl (step f) e).defs.contains l = true ↔
      e.defs.contains l = true ∨ ∃ id ∈ ids, f.Writes id l) := by
  induction ids generalizing e with
  | nil => simp [Function.ReadsFirst]
  | cons id ids ih =>
    have hid := hlt id (.head _)
    have hreads := h.reads (f.operation id).sources
    have huses : (step f e id).uses.contains l = true ↔
        e.uses.contains l = true ∨ e.defs.contains l = false ∧ f.Reads id l := by
      rw [step, uses_write]
      exact uses_reads h (fun o ho i hi => hid i (.inl ⟨o, ho, hi⟩)) l
    have hdefs : (step f e id).defs.contains l = true ↔
        e.defs.contains l = true ∨ f.Writes id l := by
      rw [step, contains_write hreads fun d hd i hi => hid i (.inr ⟨d, hd, hi⟩), defs_reads]
      rfl
    have hstep : (step f e id).Fits f := hreads.write _
    obtain ⟨ihuses, ihdefs⟩ := ih hstep fun x hx => hlt x (.tail _ hx)
    refine ⟨ihuses.trans ?_, ihdefs.trans ?_⟩
    · have hdefs' : (step f e id).defs.contains l = false ↔
          e.defs.contains l = false ∧ ¬f.Writes id l := by
        rw [← Bool.not_eq_true, hdefs, not_or, Bool.not_eq_true]
      rw [huses, hdefs', Function.ReadsFirst, or_assoc, and_assoc, ← and_or_left]
    · simp only [hdefs, List.mem_cons, exists_eq_or_imp, or_assoc]

end

theorem fits_ofBlock (f : Function) (b : BlockId) : (ofBlock f b).Fits f :=
  Fits.steps ⟨fits_ofCapacity _, fits_ofCapacity _⟩ _

variable (hf : f.LocalsInRange)

include hf

/-- The uses of a block are the locals it reads first. -/
theorem contains_uses :
    (ofBlock f b).uses.contains l = true ↔ f.ReadsFirst l (f.blockOperations b) := by
  rw [ofBlock, (contains_steps ⟨fits_ofCapacity _, fits_ofCapacity _⟩ (hf b)).1]
  simp

theorem contains_defs :
    (ofBlock f b).defs.contains l = true ↔ ∃ id ∈ f.blockOperations b, f.Writes id l := by
  rw [ofBlock, (contains_steps ⟨fits_ofCapacity _, fits_ofCapacity _⟩ (hf b)).2]
  simp

end BlockEffect

namespace Liveness

/-! ### Iteration -/

inductive End where
  | start
  | stop

def sets (l : Liveness) : End → Array LocalSet
  | .start => l.liveIn
  | .stop => l.liveOut

def ends (l : Liveness) (e : End) (b : BlockId) : LocalSet := (l.sets e).getD b.index default

def flow (f : Function) (l : Liveness) : End → BlockId → LocalSet
  | .start, b =>
    ((l.out f b).diff (ofBlock f b).defs).union (ofBlock f b).uses
  | .stop, b => l.out f b

structure Shaped (f : Function) (l : Liveness) : Prop where
  size : ∀ e, (l.sets e).size = f.blocks.size
  fits : ∀ e (b : BlockId), b.index < f.blocks.size → (l.ends e b).Fits f.localCount

def Below (l k : Liveness) : Prop :=
  ∀ e b i, (l.ends e b).contains i = true → (k.ends e b).contains i = true

/-- What is live is so because of what follows, and it is exposed. -/
structure Backed (f : Function) (l : Liveness) : Prop where
  flow : ∀ e (b : BlockId), b.index < f.blocks.size →
    ∀ i, (l.ends e b).contains i = true → (l.flow f e b).contains i = true
  exposed : f.LocalsInRange → ∀ b i, (l.before b).contains i = true → f.Exposed i b

variable {l k : Liveness} {e : End} {b : BlockId} {i : Nat} {bs : List BlockId}

theorem Shaped.ends_eq_default (h : l.Shaped f) (hb : ¬b.index < f.blocks.size) :
    l.ends e b = default := by
  rw [ends, Array.getD_eq_getD_getElem?, Array.getElem?_eq_none (by rw [h.size]; omega)]
  rfl

theorem contains_default (i : Nat) : (default : LocalSet).contains i = false := Nat.zero_testBit i

theorem fits_out (b : BlockId) : (l.out f b).Fits f.localCount := by
  exact List.foldlRecOn (f.successors b) _ (fits_ofCapacity f.localCount) fun _ hs _ _ => hs.union _

theorem fits_flow (e : End) (b : BlockId) : (l.flow f e b).Fits f.localCount := by
  cases e with
  | start => exact ((fits_out b).diff _).union _
  | stop => exact fits_out b

theorem Shaped.contains_out (h : l.Shaped f) :
    (l.out f b).contains i = true ↔ ∃ c ∈ f.successors b, (l.before c).contains i = true := by
  have hfold : ∀ (cs : List BlockId) (s : LocalSet), s.Fits f.localCount →
      ((cs.foldl (fun s c => s.union (l.before c)) s).contains i = true ↔
        s.contains i = true ∨ ∃ c ∈ cs, (l.before c).contains i = true) := by
    intro cs
    induction cs with
    | nil => simp
    | cons c cs ih =>
      intro s hs
      have hunion : (s.union (l.before c)).contains i =
          (s.contains i || (l.before c).contains i) := by
        by_cases hc : c.index < f.blocks.size
        · exact hs.contains_union (h.fits .start c hc) i
        · rw [LocalSet.contains_union, show l.before c = _ from h.ends_eq_default (e := .start) hc,
            contains_default]
          simp
      rw [List.foldl_cons, ih _ (hs.union _), hunion]
      simp only [Bool.or_eq_true, List.mem_cons, exists_eq_or_imp, or_assoc]
  rw [out, hfold _ _ (fits_ofCapacity _)]
  simp

theorem contains_inflow : (l.flow f .start b).contains i = true ↔
    (l.out f b).contains i = true ∧ (ofBlock f b).defs.contains i = false ∨
      (ofBlock f b).uses.contains i = true := by
  rw [flow, (fits_out b |>.diff _).contains_union (fits_ofBlock f b).uses]
  simp

theorem Shaped.flow_mono (h : l.Shaped f) (h' : k.Shaped f) (hle : l.Below k)
    (hi : (l.flow f e b).contains i = true) : (k.flow f e b).contains i = true := by
  have hout : (l.out f b).contains i = true → (k.out f b).contains i = true := by
    intro hi
    obtain ⟨c, hc, hci⟩ := h.contains_out.mp hi
    exact h'.contains_out.mpr ⟨c, hc, hle .start c i hci⟩
  cases e with
  | start => exact contains_inflow.mpr ((contains_inflow.mp hi).imp_left (And.imp_left hout))
  | stop => exact hout hi

def effects (f : Function) : Array BlockEffect := (f.blockIds.map (ofBlock f)).toArray

section

variable (h : l.Shaped f)

include h

section

variable (hb : b.index < f.blocks.size)

include hb

theorem ends_update (c : BlockId) : (l.update f (effects f) b).ends
    e c = if c = b then l.flow f e b else l.ends e c := by
  have hsets : (l.update f (effects f) b).sets e =
      (l.sets e).setIfInBounds b.index (l.flow f e b) := by
    cases e with
    | start => simp [sets, update, effects, Function.blockIds, hb, flow]
    | stop => rfl
  simp only [ends, hsets, Array.getD_eq_getD_getElem?, Array.getElem?_setIfInBounds, h.size, hb]
  by_cases hc : c = b
  · subst hc
    simp
  · have hne : b.index ≠ c.index := fun he => hc (congrArg BlockId.mk he.symm)
    simp [hc, hne]

theorem Shaped.update : (l.update f (effects f) b).Shaped f where
  size e := by
    have := h.size e
    cases e <;> simpa [Liveness.update, sets] using this
  fits e c hc := by
    rw [ends_update h hb]
    split
    · exact fits_flow e b
    · exact h.fits e c hc

theorem Backed.below_update (hl : l.Backed f) : l.Below (l.update f (effects f) b) := by
  intro e c i hi
  rw [ends_update h hb]
  split
  next hc =>
    subst hc
    exact hl.flow e c hb i hi
  · exact hi

end

theorem Backed.exposed_flow (hl : l.Backed f) (hf : f.LocalsInRange)
    (hi : (l.flow f .start b).contains i = true) : f.Exposed i b := by
  rcases contains_inflow.mp hi with ⟨hout, hdef⟩ | huse
  · obtain ⟨c, hc, hci⟩ := h.contains_out.mp hout
    refine .pass (fun id hid hw => ?_) hc (hl.exposed hf c i hci)
    rw [(contains_defs hf).mpr ⟨id, hid, hw⟩] at hdef
    cases hdef
  · exact .read ((contains_uses hf).mp huse)

theorem Backed.update (hl : l.Backed f) (hb : b.index < f.blocks.size) :
    (l.update f (effects f) b).Backed f where
  flow e c hc i hi := by
    refine h.flow_mono (h.update hb) (hl.below_update h hb) ?_
    rw [ends_update h hb] at hi
    split at hi
    next hcb =>
      subst hcb
      exact hi
    · exact hl.flow e c hc i hi
  exposed hf c i hi := by
    rw [show before _ c = _ from ends_update (e := .start) h hb c] at hi
    split at hi
    next hcb =>
      subst hcb
      exact hl.exposed_flow h hf hi
    · exact hl.exposed hf c i hi

end

/-- Updates keep the shape and only add locals. -/
theorem updates_spec (hbs : ∀ b ∈ bs, b.index < f.blocks.size) (h : l.Shaped f) (hl : l.Backed f) :
    (bs.foldl (Liveness.update f (effects f)) l).Shaped f ∧
      (bs.foldl (Liveness.update f (effects f)) l).Backed f ∧
      l.Below (bs.foldl (Liveness.update f (effects f)) l) := by
  induction bs generalizing l with
  | nil => exact ⟨h, hl, fun _ _ _ hi => hi⟩
  | cons b bs ih =>
    have hb := hbs b (.head _)
    obtain ⟨hshape, hback, hle⟩ :=
      ih (fun c hc => hbs c (.tail _ hc)) (h.update hb) (hl.update h hb)
    exact ⟨hshape, hback, fun e c i hi => hle e c i (hl.below_update h hb e c i hi)⟩

theorem Shaped.eq_of_below (h : l.Shaped f) (h' : k.Shaped f) (hle : l.Below k) (hge : k.Below l) :
    l = k := by
  have hsets : ∀ e, l.sets e = k.sets e := by
    intro e
    refine Array.ext ((h.size e).trans (h'.size e).symm) fun i hi hi' => ?_
    have hb : i < f.blocks.size := h.size e ▸ hi
    have hl := h.fits e ⟨i⟩ hb
    have hk := h'.fits e ⟨i⟩ hb
    have hmem : ∀ j, _ ↔ _ := fun j => ⟨hle e ⟨i⟩ j, hge e ⟨i⟩ j⟩
    simp only [ends, Array.getD_eq_getD_getElem?, Array.getElem?_eq_getElem hi,
      Array.getElem?_eq_getElem hi'] at hl hk hmem
    exact ext_contains (hl.words.trans hk.words.symm) fun j => Bool.eq_iff_iff.mpr (hmem j)
  obtain ⟨lin, lout⟩ := l
  obtain ⟨kin, kout⟩ := k
  rw [show lin = kin from hsets .start, show lout = kout from hsets .stop]

/-- A pass that changes nothing changes nothing at any block. -/
theorem update_eq_of_updates (hbs : ∀ b ∈ bs, b.index < f.blocks.size) (h : l.Shaped f)
    (hl : l.Backed f) (heq : bs.foldl (Liveness.update f (effects f)) l = l) :
    ∀ b ∈ bs, l.update f (effects f) b = l := by
  induction bs with
  | nil => simp
  | cons b bs ih =>
    have hb := hbs b (.head _)
    have hrest : ∀ c ∈ bs, c.index < f.blocks.size := fun c hc => hbs c (.tail _ hc)
    rw [List.foldl_cons] at heq
    have hfirst : l.update f (effects f) b = l := by
      obtain ⟨-, -, hle⟩ := updates_spec hrest (h.update hb) (hl.update h hb)
      rw [heq] at hle
      exact ((h.eq_of_below (h.update hb) (hl.below_update h hb) hle)).symm
    rw [hfirst] at heq
    exact List.forall_mem_cons.mpr ⟨hfirst, ih hrest heq⟩

/-! ### Termination -/

open Finset in
def members (f : Function) (l : Liveness) (e : End) : Finset (Nat × Nat) :=
  {m ∈ range f.blocks.size ×ˢ range (ofCapacity f.localCount).capacity |
    (l.ends e ⟨m.1⟩).contains m.2 = true}

def weight (f : Function) (l : Liveness) : Nat :=
  (members f l .start).card + (members f l .stop).card

theorem card_members_le (f : Function) (l : Liveness) (e : End) :
    (members f l e).card ≤ f.blocks.size * (ofCapacity f.localCount).capacity := by
  refine (card_filter_le _ _).trans ?_
  rw [card_product, card_range, card_range]

theorem Below.members_subset (h : l.Below k) (e : End) : members f l e ⊆ members f k e :=
  monotone_filter_right _ fun _ _ hm => h _ _ _ hm

theorem Below.contains_of_card (h : l.Below k) (hk : k.Shaped f)
    (hcard : (members f k e).card ≤ (members f l e).card)
    (hi : (k.ends e b).contains i = true) : (l.ends e b).contains i = true := by
  have hb : b.index < f.blocks.size := by
    by_contra hb
    rw [hk.ends_eq_default hb, contains_default] at hi
    cases hi
  have hfit := hk.fits e b hb
  have heq := eq_of_subset_of_card_le (h.members_subset e) hcard
  have hmem : (b.index, i) ∈ members f k e := by
    simp only [members, mem_filter, mem_product, mem_range]
    exact ⟨⟨hb, hfit.capacity_eq ▸ hfit.lt i hi⟩, hi⟩
  rw [← heq] at hmem
  exact (mem_filter.mp hmem).2

/-- A change adds a member. -/
theorem weight_lt (h : l.Shaped f) (h' : k.Shaped f) (hle : l.Below k) (hne : k ≠ l) :
    weight f l < weight f k := by
  have hcard := fun e => card_le_card (hle.members_subset (f := f) e)
  have hin := hcard .start
  have hout := hcard .stop
  by_contra hlt
  simp only [weight] at hlt
  refine hne (h'.eq_of_below h (fun e b i hi => hle.contains_of_card h' ?_ hi) hle)
  cases e <;> omega

theorem exists_iterate (rounds : Nat) (l : Liveness) :
    ∃ n, stabilize f (effects f) rounds l = (round f (effects f))^[n] l := by
  induction rounds generalizing l with
  | zero => exact ⟨0, rfl⟩
  | succ rounds ih =>
    rw [stabilize]
    split
    · exact ⟨0, rfl⟩
    · obtain ⟨n, hn⟩ := ih (round f (effects f) l)
      exact ⟨n + 1, hn⟩

/-- With enough rounds the iteration comes to rest. -/
theorem round_stabilize {rounds : Nat} (h : l.Shaped f) (hl : l.Backed f)
    (hrounds : 2 * (f.blocks.size * (ofCapacity f.localCount).capacity) < weight f l + rounds) :
    (stabilize f (effects f) rounds l).Shaped f ∧ (stabilize f (effects f) rounds l).Backed f ∧
      round f (effects f) (stabilize f (effects f) rounds l) =
        stabilize f (effects f) rounds l := by
  induction rounds generalizing l with
  | zero =>
    have hin := card_members_le f l .start
    have hout := card_members_le f l .stop
    simp only [weight] at hrounds
    omega
  | succ rounds ih =>
    obtain ⟨hshape, hback, hle⟩ : (round f (effects f) l).Shaped f ∧ _ ∧ _ :=
      updates_spec (fun _ hb => Function.mem_blockIds.mp (List.mem_reverse.mp hb)) h hl
    rw [stabilize]
    split
    next heq => exact ⟨h, hl, heq⟩
    next hne =>
      have hlt := weight_lt h hshape hle hne
      exact ih hshape hback (by omega)

def start (f : Function) : Liveness where
  liveIn := (effects f).map (·.uses)
  liveOut := (effects f).map fun _ => .ofCapacity f.localCount

theorem before_start (hb : b.index < f.blocks.size) : (start f).before b = (ofBlock f b).uses := by
  simp [start, before, effects, Function.blockIds, hb]

theorem after_start (hb : b.index < f.blocks.size) :
    (start f).after b = .ofCapacity f.localCount := by
  simp [start, after, effects, Function.blockIds, hb]

theorem shaped_start (f : Function) : (start f).Shaped f where
  size e := by cases e <;> simp [start, sets, effects, Function.blockIds]
  fits e b hb := by
    cases e with
    | start =>
      rw [show (start f).ends .start b = _ from before_start hb]
      exact (fits_ofBlock f b).uses
    | stop =>
      rw [show (start f).ends .stop b = _ from after_start hb]
      exact fits_ofCapacity _

theorem backed_start (f : Function) : (start f).Backed f where
  flow e b hb i hi := by
    cases e with
    | start => exact contains_inflow.mpr (.inr (before_start hb ▸ hi))
    | stop =>
      rw [show (start f).ends .stop b = _ from after_start hb, contains_ofCapacity] at hi
      cases hi
  exposed hf b i hi := by
    by_cases hb : b.index < f.blocks.size
    · rw [before_start hb] at hi
      exact .read ((contains_uses hf).mp hi)
    · rw [show (start f).before b = _ from (shaped_start f).ends_eq_default (e := .start) hb,
        contains_default] at hi
      cases hi

theorem compute_spec (f : Function) : (compute f).Shaped f ∧ (compute f).Backed f ∧
    round f (effects f) (compute f) = compute f := by
  refine round_stabilize (shaped_start f) (backed_start f) ?_
  have hcap := (capacity_bounds f.localCount).2
  have hmul := Nat.mul_le_mul_left f.blocks.size hcap.le
  simp only [maxRounds, Function.blockCount]
  rw [Nat.mul_assoc]
  omega

theorem shaped_compute (f : Function) : (compute f).Shaped f := (compute_spec f).1

/-- The result solves the flow equations. -/
theorem flow_compute (hb : b.index < f.blocks.size) :
    (compute f).before b = (compute f).flow f .start b ∧
    (compute f).after b = (compute f).out f b := by
  obtain ⟨hshape, hback, hround⟩ := compute_spec f
  have hupdate : (compute f).update f (effects f) b = compute f :=
    update_eq_of_updates (fun _ hc => Function.mem_blockIds.mp (List.mem_reverse.mp hc))
      hshape hback hround b (List.mem_reverse.mpr (Function.mem_blockIds.mpr hb))
  have hends : ∀ e, (compute f).ends e b = (compute f).flow f e b := by
    intro e
    have hends := ends_update (e := e) hshape hb b
    rwa [hupdate, if_pos rfl] at hends
  exact ⟨hends .start, hends .stop⟩

/-! ### Exactness -/

section

variable (hf : f.LocalsInRange)

include hf

theorem exposed_compute (hi : ((compute f).before b).contains i = true) : f.Exposed i b :=
  (compute_spec f).2.1.exposed hf b i hi

/-- A local is live before a block if it is exposed there. -/
theorem contains_before (hb : b.index < f.blocks.size)
    (hexist : ∀ b c, c ∈ f.successors b → c.index < f.blocks.size) :
    ((compute f).before b).contains i = true ↔ f.Exposed i b := by
  refine ⟨exposed_compute hf, fun hi => ?_⟩
  induction hi with
  | @read b h =>
    rw [(flow_compute hb).1]
    exact contains_inflow.mpr (.inr ((contains_uses hf).mpr h))
  | @pass b c hw hc h ih =>
    rw [(flow_compute hb).1]
    refine contains_inflow.mpr (.inl ⟨?_, ?_⟩)
    · exact (shaped_compute f).contains_out.mpr ⟨c, hc, ih (hexist b c hc)⟩
    · rw [← Bool.not_eq_true, contains_defs hf]
      rintro ⟨id, hid, hwrite⟩
      exact hw id hid hwrite

end

/-- A local is live after a block if it is live before a successor. -/
theorem contains_after (hb : b.index < f.blocks.size) :
    ((compute f).after b).contains i = true ↔
      ∃ c ∈ f.successors b, ((compute f).before c).contains i = true := by
  rw [(flow_compute hb).2]
  exact (shaped_compute f).contains_out

end Liveness

end Dynarec.IR
