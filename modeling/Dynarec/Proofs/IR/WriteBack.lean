import Dynarec.Proofs.IR.Versions
import Mathlib.Data.List.Count

/-!
# Write-back

Which operands are dirty, and where the stores of the dirty ones end up. An operand is dirty if an
operation other than a load or a phi defines it, and a phi is dirty if one of its sources is.
-/

namespace Dynarec.IR.SSA

open List

variable {f g : Function} {phis : List OpId} {v : OperandId} {stores : OpId → List OpId}
  {done : List PendingStore}

/-! ### Dirty operands -/

def Marked.Le (a b : Array Bool) : Prop :=
  a.size = b.size ∧ ∀ i, a.getD i false = true → b.getD i false = true

namespace Marked.Le

variable {a b c : Array Bool}

theorem refl : Marked.Le a a := ⟨rfl, fun _ h => h⟩

theorem trans (h : Marked.Le a b) (h' : Marked.Le b c) : Marked.Le a c :=
  ⟨h.1.trans h'.1, fun i hi => h'.2 i (h.2 i hi)⟩

theorem antisymm (h : Marked.Le a b) (h' : Marked.Le b a) : a = b := by
  refine Array.ext h.1 fun i hi hi' => ?_
  have hab := h.2 i
  have hba := h'.2 i
  simp only [Array.getD_eq_getD_getElem?, Array.getElem?_eq_getElem hi,
    Array.getElem?_eq_getElem hi'] at hab hba
  exact Bool.eq_iff_iff.mpr ⟨hab, hba⟩

theorem setIfInBounds (i : Nat) : Marked.Le a (a.setIfInBounds i true) := by
  refine ⟨Array.size_setIfInBounds.symm, fun j hj => ?_⟩
  simp only [Array.getD_eq_getD_getElem?, Array.getElem?_setIfInBounds] at hj ⊢
  split
  · split
    · rfl
    · next hi hlt =>
      rw [Array.getElem?_eq_none (by omega)] at hj
      cases hj
  · exact hj

end Marked.Le

def spreadOne (f : Function) (dirty : Array Bool) (id : OpId) : Array Bool :=
  let op := f.operation id
  match op.dest with
  | some d =>
    if op.sources.any fun s => dirty.getD s.index false then dirty.setIfInBounds d.index true
    else dirty
  | none => dirty

theorem le_spreadOne (dirty : Array Bool) (id : OpId) : Marked.Le dirty (spreadOne f dirty id) := by
  unfold spreadOne
  dsimp only
  split
  · split
    · exact .setIfInBounds _
    · exact .refl
  · exact .refl

theorem le_foldl_spreadOne (phis : List OpId) (dirty : Array Bool) :
    Marked.Le dirty (phis.foldl (spreadOne f) dirty) := by
  exact foldlRecOn phis _ .refl fun _ hle id _ => hle.trans (le_spreadOne _ id)

/-- After a round every phi is marked that had a marked source before it. -/
theorem marked_foldl_spreadOne {dirty : Array Bool} {id : OpId} (hid : id ∈ phis) {d : OperandId}
    (hdest : (f.operation id).dest = some d) (hd : d.index < dirty.size) {s : OperandId}
    (hs : s ∈ (f.operation id).sources) (hmark : dirty.getD s.index false = true) :
    (phis.foldl (spreadOne f) dirty).getD d.index false = true := by
  induction phis generalizing dirty with
  | nil => cases hid
  | cons x phis ih =>
    have hle := le_spreadOne (f := f) dirty x
    rcases mem_cons.mp hid with rfl | hid
    · refine (le_foldl_spreadOne phis _).2 _ ?_
      rw [spreadOne, hdest]
      simp only
      rw [if_pos (any_eq_true.mpr ⟨s, hs, hmark⟩)]
      simp [hd]
    · exact ih hid (hle.1 ▸ hd) (hle.2 _ hmark)

/-- A round marks only destinations of phis. -/
theorem marked_of_foldl_spreadOne {dirty : Array Bool} {i : Nat}
    (h : (phis.foldl (spreadOne f) dirty).getD i false = true) :
    dirty.getD i false = true ∨
      ∃ id ∈ phis, ∃ d : OperandId, (f.operation id).dest = some d ∧ d.index = i := by
  induction phis generalizing dirty with
  | nil => exact .inl h
  | cons x phis ih =>
    rcases ih h with h | ⟨id, hid, hd⟩
    · unfold spreadOne at h
      dsimp only at h
      split at h
      · next d hdest =>
        by_cases hi : d.index = i
        · exact .inr ⟨x, .head _, d, hdest, hi⟩
        · left
          split at h
          · simpa [hi] using h
          · exact h
      · exact .inl h
    · exact .inr ⟨id, .tail _ hid, hd⟩

def destMarked (f : Function) (dirty : Array Bool) (id : OpId) : Bool :=
  match (f.operation id).dest with
  | some d => dirty.getD d.index false
  | none => false

theorem countP_lt {α : Type} {p q : α → Bool} {l : List α} (himp : ∀ x ∈ l, p x → q x) {x : α}
    (hx : x ∈ l) (hq : q x = true) (hp : p x = false) : l.countP p < l.countP q := by
  have hfilter : l.countP p = (l.filter q).countP p := by
    rw [countP_filter]
    refine countP_congr fun y hy => ?_
    simpa using himp y hy
  rw [hfilter, countP_eq_length_filter (p := q), countP_lt_length_iff]
  exact ⟨x, mem_filter.mpr ⟨hx, hq⟩, hp⟩

/-- A round that changes something marks one more phi. -/
theorem countP_spread {dirty : Array Bool} (hne : spread f phis dirty ≠ dirty) :
    phis.countP (destMarked f dirty) < phis.countP (destMarked f (spread f phis dirty)) := by
  have hle := le_foldl_spreadOne (f := f) phis dirty
  have himp : ∀ id ∈ phis, destMarked f dirty id →
      destMarked f (phis.foldl (spreadOne f) dirty) id := by
    intro id _ h
    unfold destMarked at h ⊢
    split at h
    · exact hle.2 _ h
    · cases h
  have hback : ¬Marked.Le (phis.foldl (spreadOne f) dirty) dirty := fun h => hne (h.antisymm hle)
  obtain ⟨i, hi, hnot⟩ : ∃ i, (phis.foldl (spreadOne f) dirty).getD i false = true ∧
      dirty.getD i false ≠ true := by
    by_contra hall
    push Not at hall
    exact hback ⟨hle.1.symm, hall⟩
  obtain ⟨id, hid, d, hdest, rfl⟩ := (marked_of_foldl_spreadOne hi).resolve_left hnot
  refine countP_lt himp hid ?_ ?_
  · rw [destMarked, hdest]
    exact hi
  · rw [destMarked, hdest]
    exact Bool.eq_false_iff.mpr hnot

/-- With a round for each phi and one more, nothing is left to mark. -/
theorem spread_saturate {rounds : Nat} {dirty : Array Bool}
    (hrounds : phis.length < rounds + phis.countP (destMarked f dirty)) :
    spread f phis (saturate f phis rounds dirty) = saturate f phis rounds dirty ∧
      Marked.Le dirty (saturate f phis rounds dirty) := by
  induction rounds generalizing dirty with
  | zero =>
    have := countP_le_length (p := destMarked f dirty) (l := phis)
    omega
  | succ rounds ih =>
    rw [saturate]
    split
    · next heq => exact ⟨heq, .refl⟩
    · next hne =>
      have hlt := countP_spread hne
      obtain ⟨hfix, hle⟩ := ih (show phis.length <
        rounds + phis.countP (destMarked f (spread f phis dirty)) by omega)
      exact ⟨hfix, (le_foldl_spreadOne phis dirty).trans hle⟩

def dirty (f : Function) (v : OperandId) : Bool := (dirtyOperands f).getD v.index false

theorem dirtyOperands_spec :
    spread f (localPhis f) (dirtyOperands f) = dirtyOperands f ∧
      Marked.Le (initialDirty f) (dirtyOperands f) :=
  spread_saturate (by omega)

theorem size_dirtyOperands : (dirtyOperands f).size = f.operands.size := by
  rw [← dirtyOperands_spec.2.1]
  simp [initialDirty]

theorem operand_eq_getElem (hlt : v.index < f.operands.size) :
    f.operand v = f.operands[v.index] := by
  simp [Function.operand, hlt]

theorem isSome_local? {k : Nat} (hkind : f.program.kind v = .local_ k) :
    (f.operand v).local?.isSome = true := by
  have hk : (f.operand v).kind = .local_ k := hkind
  rw [Operand.local?, hk]
  rfl

section Dirty

variable {b : BlockId} {id : OpId} {v : OperandId} {k : Nat}

/-- What an operation computes is dirty. -/
theorem dirty_of_def (h : f.WellFormed) (hid : id ∈ f.program.code b)
    (hdest : (f.program.stmt id).dest = some v) (hkind : f.program.kind v = .local_ k)
    (hinst : dirties f id = true) : dirty f v = true := by
  refine dirtyOperands_spec.2.2 _ ?_
  have hlt := h.dest_lt hid hdest
  have hdefs : id ∈ (f.operand v).defs := (h.tracked.defs v id).mpr ⟨h.live_of_mem hid, hdest⟩
  have hany : (f.operand v).defs.any (dirties f) = true := any_eq_true.mpr ⟨id, hdefs, hinst⟩
  have hlocal := isSome_local? hkind
  rw [operand_eq_getElem hlt] at hany hlocal
  simp [initialDirty, hlt, hany, hlocal]

/-- A phi with a dirty source is dirty. -/
theorem dirty_of_phi (h : f.WellFormed) (hid : id ∈ f.program.code b)
    (hphi : (f.program.stmt id).inst = .phi) (hdest : (f.program.stmt id).dest = some v)
    (hkind : f.program.kind v = .local_ k) {s : OperandId}
    (hs : s ∈ (f.program.stmt id).sources) (hdirty : dirty f s = true) : dirty f v = true := by
  have hlt := h.dest_lt hid hdest
  have hdefs : id ∈ (f.operand v).defs := (h.tracked.defs v id).mpr ⟨h.live_of_mem hid, hdest⟩
  have hmem : id ∈ localPhis f := by
    refine mem_flatMap.mpr ⟨f.operand v, ?_, ?_⟩
    · rw [operand_eq_getElem hlt]
      exact Array.getElem_mem_toList hlt
    · rw [if_pos (isSome_local? hkind)]
      exact mem_filter.mpr ⟨hdefs, beq_iff_eq.mpr hphi⟩
  rw [dirty, ← dirtyOperands_spec.1]
  exact marked_foldl_spreadOne hmem hdest (size_dirtyOperands ▸ hlt) hs hdirty

end Dirty

/-! ### Stores -/

/-- `g` is `f` with a store for each of `done` before its anchor, in that order. -/
structure Stored (f g : Function) (stores : OpId → List OpId) (done : List PendingStore) : Prop
    extends Function.Added f g where
  code : ∀ b, g.program.code b = (f.program.code b).flatMap fun id => stores id ++ [id]
  lt : ∀ id, ∀ s ∈ stores id, s.index < g.operations.size
  stores : ∀ id, List.Forall₂ (fun s p =>
    g.program.stmt s = ⟨.storeContext (.register p.reg), none, [p.value]⟩) (stores id)
    (done.filter fun p => p.anchor = id)

theorem Stored.refl (h : f.WellFormed) : Stored f f (fun _ => []) [] where
  toAdded := .refl h
  code b := by simp
  lt _ := forall_mem_nil _
  stores _ := .nil

theorem Stored.nil (h : Stored f g stores done) {id : OpId} (hnone : ∀ p ∈ done, p.anchor ≠ id) :
    stores id = [] := by
  have hstores := h.stores id
  rwa [filter_eq_nil_iff.mpr (by simpa using hnone), forall₂_nil_right_iff] at hstores

theorem flatMap_stores {ids : List OpId} (hids : ∀ id ∈ ids, stores id = []) :
    (ids.flatMap fun id => stores id ++ [id]) = ids := by
  rw [flatMap_congr fun id hid => by rw [hids id hid, nil_append], flatMap_singleton']

theorem Stored.insert (hf : f.WellFormed) (h : Stored f g stores done) {p : PendingStore}
    {b : BlockId} (hmem : p.anchor ∈ f.program.code b) (hlt : p.value.index < f.operands.size)
    {res : OpId × Function}
    (hres : res = g.pushBefore p.anchor (.storeContext (.register p.reg)) none [p.value]) :
    Stored f res.2 (Function.update stores p.anchor (stores p.anchor ++ [res.1]))
      (done ++ [p]) := by
  obtain ⟨before, after, hsplit⟩ := append_of_mem hmem
  have hbefore : ∀ id ∈ before, id ≠ p.anchor := fun id hid heq =>
    hf.notMem_code hsplit (.head _) (heq ▸ hid)
  have hafter : ∀ id ∈ after, id ≠ p.anchor := fun id hid heq =>
    hf.notMem_code (hsplit.trans (append_cons _ _ _)) (heq ▸ hid) (by simp)
  have hcode : g.program.code b = (before.flatMap (fun id => stores id ++ [id]) ++
      stores p.anchor) ++ p.anchor :: after.flatMap fun id => stores id ++ [id] := by
    rw [h.code, hsplit, flatMap_append, flatMap_cons]
    simp only [append_assoc, singleton_append]
  have hins : Function.Inserted g b ⟨.storeContext (.register p.reg), none, [p.value]⟩
      ((before.flatMap (fun id => stores id ++ [id]) ++ stores p.anchor) ++
        ⟨g.operations.size⟩ :: p.anchor :: after.flatMap fun id => stores id ++ [id]) res := by
    rw [hres]
    refine h.wf.inserted_pushBefore _ hcode ?_ ?_ ?_
    · exact (by decide : 1 ≤ maxSources)
    · simpa [h.pools.operands] using hlt
    · exact fun d hd => absurd hd (by simp)
  have hid := hins.id_eq
  have hother : ∀ ids : List OpId, (∀ id ∈ ids, id ≠ p.anchor) →
      (ids.flatMap fun id =>
        Function.update stores p.anchor (stores p.anchor ++ [res.1]) id ++ [id]) =
        ids.flatMap fun id => stores id ++ [id] := by
    intro ids hids
    refine flatMap_congr fun id hid => ?_
    rw [Function.update_of_ne (hids id hid)]
  refine ⟨h.toAdded.trans hins.added, fun c => ?_, fun id s hs => ?_, fun id => ?_⟩
  · rw [hins.program, Program.code_withCode]
    split
    · next hcb =>
      rw [hcb, hsplit, flatMap_append, flatMap_cons, hother before hbefore,
        hother after hafter, ← hid]
      simp
    · next hcb =>
      rw [Program.code_withStmt, h.code, hother]
      rintro id hx rfl
      exact hcb (hf.block_unique hx hmem)
  · rw [hins.size]
    rw [Function.update_apply] at hs
    split at hs
    · rcases mem_append.mp hs with hs | hs
      · exact Nat.lt_succ_of_lt (h.lt _ s hs)
      · rw [mem_singleton.mp hs, hid]
        exact Nat.lt_succ_self _
    · exact Nat.lt_succ_of_lt (h.lt _ s hs)
  · have hkeep : List.Forall₂ (fun s p =>
        res.2.program.stmt s = ⟨.storeContext (.register p.reg), none, [p.value]⟩) (stores id)
        (done.filter fun p => p.anchor = id) :=
      forall₂_imp_mem (h.stores id) fun s hs q _ heq => (hins.stmt_of_lt (h.lt id s hs)).trans heq
    rw [Function.update_apply, filter_append]
    split
    · next heq =>
      subst heq
      have hsingle : ([p].filter fun q => decide (q.anchor = p.anchor)) = [p] := by simp
      rw [hsingle]
      exact rel_append hkeep (.cons (hid ▸ hins.stmt_new) .nil)
    · next hne =>
      have hnone : ([p].filter fun q => decide (q.anchor = id)) = [] := by
        simpa using fun h => hne h.symm
      rw [hnone, append_nil]
      exact hkeep

def storeDirty (f g : Function) (p : PendingStore) : Function :=
  if dirty f p.value then
    (g.pushBefore p.anchor (.storeContext (.register p.reg)) none [p.value]).2
  else g

/-- The pending values that are dirty are stored before their anchors. -/
theorem Stored.foldl_storeDirty {todo : List PendingStore} (hf : f.WellFormed)
    (hanchor : ∀ p ∈ todo, ∃ b, p.anchor ∈ f.program.code b)
    (hvalue : ∀ p ∈ todo, p.value.index < f.operands.size) (h : Stored f g stores done) :
    ∃ stores', Stored f (todo.foldl (storeDirty f) g) stores'
      (done ++ todo.filter fun p => dirty f p.value) := by
  induction todo generalizing g stores done with
  | nil => exact ⟨stores, by simpa using h⟩
  | cons p todo ih =>
    obtain ⟨b, hb⟩ := hanchor p (.head _)
    have hanchor' := fun q hq => hanchor q (.tail p hq)
    have hvalue' := fun q hq => hvalue q (.tail p hq)
    rw [foldl_cons, storeDirty, filter_cons]
    split
    · have h₁ := h.insert hf hb (hvalue p (.head _)) rfl
      obtain ⟨stores', h'⟩ := ih hanchor' hvalue' h₁
      rw [append_assoc] at h'
      exact ⟨stores', h'⟩
    · exact ih hanchor' hvalue' h

end Dynarec.IR.SSA
