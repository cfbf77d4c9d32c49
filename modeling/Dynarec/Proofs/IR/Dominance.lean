import Dynarec.Proofs.IR.Meaning

/-!
# Definitions on paths

A path lists the blocks that control passed on its way from the entry. An operand is defined before
a block if every path to the block has passed a definition; when there is one definition only, its
block dominates the other strictly.
-/

namespace Dynarec.IR.Program

open List

variable (p : Program)

/-- A way from the entry to a block; the blocks passed before are listed, the latest first. -/
inductive Path : List BlockId → BlockId → Prop
  | entry : Path [] Function.entry
  | step {visited : List BlockId} {b c : BlockId} (hb : Path visited b) (hc : c ∈ p.successors b) :
      Path (b :: visited) c

def Defines (b : BlockId) (v : OperandId) : Prop := ∃ id ∈ p.code b, (p.stmt id).dest = some v

def DefinedBefore (b : BlockId) (v : OperandId) : Prop :=
  ∀ visited, p.Path visited b → ∃ c ∈ visited, p.Defines c v

/-- After the operations `done` of a block the operand has been defined. -/
def DefinedAt (b : BlockId) (done : List OpId) (v : OperandId) : Prop :=
  (∃ id ∈ done, (p.stmt id).dest = some v) ∨ p.DefinedBefore b v

def Dominates (c b : BlockId) : Prop := ∀ visited, p.Path visited b → c ∈ b :: visited

/-- A local has one definition, in one place. -/
def DefinedOnce : Prop :=
  ∀ b c l r l' r' id id' v i, p.code b = l ++ id :: r → p.code c = l' ++ id' :: r' →
    (p.stmt id).dest = some v → (p.stmt id').dest = some v → p.kind v = .local_ i →
    b = c ∧ l = l' ∧ id = id'

variable {p} {visited : List BlockId} {b c : BlockId} {q : Program} {v : OperandId}

theorem Path.reachable (h : p.Path visited b) : p.Reachable b := by
  induction h with
  | entry => exact .entry
  | step _ hc ih => exact .step ih hc

theorem Reachable.path (h : p.Reachable b) : ∃ visited, p.Path visited b := by
  induction h with
  | entry => exact ⟨[], .entry⟩
  | step _ hc ih =>
    obtain ⟨visited, hpath⟩ := ih
    exact ⟨_, .step hpath hc⟩

/-- A path to a block starts with a path to each block on it. -/
theorem Path.earlier {rest : List BlockId} {later : List BlockId} (h : p.Path visited b)
    (hsplit : visited = later ++ c :: rest) : p.Path rest c := by
  induction h generalizing later with
  | entry => simp at hsplit
  | @step visited b _ hb _ ih =>
    cases later with
    | nil =>
      obtain ⟨rfl, rfl⟩ := cons.inj hsplit
      exact hb
    | cons _ later => exact ih (cons.inj hsplit).2

theorem Path.mono (hsucc : ∀ b c, q.Reachable b → c ∈ p.successors b → c ∈ q.successors b)
    (h : p.Path visited b) : q.Path visited b := by
  induction h with
  | entry => exact .entry
  | step _ hc ih => exact .step ih (hsucc _ _ ih.reachable hc)

/-- Definitions come before a block in each program that has the same edges, or fewer. -/
theorem DefinedBefore.mono
    (hsucc : ∀ b c, p.Reachable b → c ∈ q.successors b → c ∈ p.successors b) {w : OperandId}
    (hdef : ∀ c, p.Reachable c → p.Defines c v → q.Defines c w) (h : p.DefinedBefore b v) :
    q.DefinedBefore b w := by
  intro visited hpath
  have hpath' := hpath.mono hsucc
  obtain ⟨c, hc, hcdef⟩ := h visited hpath'
  obtain ⟨later, rest, hsplit⟩ := append_of_mem hc
  exact ⟨c, hc, hdef c (hpath'.earlier hsplit).reachable hcdef⟩

theorem definedBefore_of_not_reachable (h : ¬p.Reachable b) (v : OperandId) :
    p.DefinedBefore b v := fun _ hpath => absurd hpath.reachable h

/-- What is defined before a block is defined in or before each predecessor. -/
theorem DefinedBefore.pred (h : p.DefinedBefore c v) (hc : c ∈ p.successors b) :
    p.DefinedAt b (p.code b) v := by
  by_cases hb : p.Defines b v
  · exact .inl hb
  · refine .inr fun visited hpath => ?_
    obtain ⟨d, hd, hdef⟩ := h _ (.step hpath hc)
    rcases mem_cons.mp hd with rfl | hd
    · exact absurd hdef hb
    · exact ⟨d, hd, hdef⟩

theorem DefinedAt.mono {done more : List OpId} (h : p.DefinedAt b done v) (hsub : done ⊆ more) :
    p.DefinedAt b more v :=
  h.imp_left fun ⟨id, hid, hdest⟩ => ⟨id, hsub hid, hdest⟩

namespace DefinedOnce

variable (h : p.DefinedOnce) {b c : BlockId} {v w : OperandId} {i : Nat}

include h

section

variable (hv : p.kind v = .local_ i)

include hv

theorem place {l r l' r' : List OpId} {id id' : OpId} (hcode : p.code b = l ++ id :: r)
    (hcode' : p.code c = l' ++ id' :: r')
    (hdest : (p.stmt id).dest = some v) (hdest' : (p.stmt id').dest = some v) :
    b = c ∧ l = l' ∧ id = id' :=
  h b c l r l' r' id id' v i hcode hcode' hdest hdest' hv

theorem unique {id id' : OpId} (hid : id ∈ p.code b) (hid' : id' ∈ p.code c)
    (hdest : (p.stmt id).dest = some v) (hdest' : (p.stmt id').dest = some v) :
    b = c ∧ id = id' := by
  obtain ⟨l, r, hcode⟩ := append_of_mem hid
  obtain ⟨l', r', hcode'⟩ := append_of_mem hid'
  obtain ⟨hb, -, heq⟩ := h.place hv hcode hcode' hdest hdest'
  exact ⟨hb, heq⟩

/-- No operation in front of a definition defines the same. -/
theorem dest_ne {done rest : List OpId} {id e : OpId} (hcode : p.code b = done ++ id :: rest)
    (hdest : (p.stmt id).dest = some v) (he : e ∈ done) : (p.stmt e).dest ≠ some v := by
  intro hedest
  obtain ⟨l, r, rfl⟩ := append_of_mem he
  have hcode' := hcode
  rw [append_assoc, cons_append] at hcode'
  obtain ⟨-, heq, -⟩ := h.place hv hcode' hcode hedest hdest
  simpa using congrArg length heq

theorem block_eq (hb : p.Defines b v) (hc : p.Defines c v) : b = c := by
  obtain ⟨id, hid, hdest⟩ := hb
  obtain ⟨id', hid', hdest'⟩ := hc
  exact (h.unique hv hid hid' hdest hdest').1

/-- A reachable block does not define what is defined before it: a shortest path to it would pass
it on the way. -/
theorem not_defines (hb : p.Reachable b) (hbefore : p.DefinedBefore b v) : ¬p.Defines b v := by
  intro hdef
  have hnone : ∀ n visited, visited.length = n → ¬p.Path visited b := by
    intro n
    induction n using Nat.strongRecOn with
    | _ n ih =>
      intro visited hlen hpath
      obtain ⟨c, hc, hcdef⟩ := hbefore visited hpath
      obtain rfl := h.block_eq hv hdef hcdef
      obtain ⟨later, rest, hsplit⟩ := append_of_mem hc
      refine ih rest.length ?_ rest rfl (hpath.earlier hsplit)
      rw [← hlen, hsplit, length_append, length_cons]
      omega
  obtain ⟨visited, hpath⟩ := hb.path
  exact hnone _ visited rfl hpath

/-- With one definition, to be defined before a block means that the defining block dominates it
strictly. -/
theorem definedBefore_iff (hb : p.Reachable b) :
    p.DefinedBefore b v ↔ ∃ c, c ≠ b ∧ p.Dominates c b ∧ p.Defines c v := by
  constructor
  · intro hbefore
    obtain ⟨visited, hpath⟩ := hb.path
    obtain ⟨c, -, hdef⟩ := hbefore visited hpath
    refine ⟨c, fun heq => h.not_defines hv hb hbefore (heq ▸ hdef), fun visited' hpath' => ?_, hdef⟩
    obtain ⟨d, hd, hdef'⟩ := hbefore visited' hpath'
    rw [h.block_eq hv hdef hdef']
    exact .tail _ hd
  · rintro ⟨c, hne, hdom, hdef⟩ visited hpath
    rcases mem_cons.mp (hdom visited hpath) with heq | hmem
    · exact absurd heq hne
    · exact ⟨c, hmem, hdef⟩

/-- What is defined where `v` is defined comes with `v`. -/
theorem definedBefore_trans {done rest : List OpId} {id : OpId}
    (hcode : p.code c = done ++ id :: rest) (hdest : (p.stmt id).dest = some v)
    (hw : p.DefinedAt c done w) (hbefore : p.DefinedBefore b v) : p.DefinedBefore b w := by
  intro visited hpath
  obtain ⟨d, hd, hdef⟩ := hbefore visited hpath
  obtain rfl := h.block_eq hv hdef ⟨id, mem_of_split hcode, hdest⟩
  rcases hw with ⟨x, hx, hxdest⟩ | hw
  · exact ⟨d, hd, x, hcode ▸ mem_append_left _ hx, hxdest⟩
  · obtain ⟨later, rest', hsplit⟩ := append_of_mem hd
    obtain ⟨e, he, hedef⟩ := hw rest' (hpath.earlier hsplit)
    refine ⟨e, ?_, hedef⟩
    rw [hsplit]
    exact mem_append_right _ (.tail _ he)

end

end DefinedOnce

end Dynarec.IR.Program
