import Dynarec.Proofs.IR.Pools

/-!
# Blocks as linked lists

The operations of a block are linked in both directions. `Layout` says which operations stand in
which block, and that the links, the ends of the blocks and the owners of the operations agree with
it. An insertion or a removal changes the layout as it would change a list.
-/

open Function (update update_of_ne update_self)

namespace Dynarec.IR.Function

open List

/-- The operations are linked in this order, between `prev` and `next`. -/
def Linked (f : Function) (next : Option OpId) : (prev : Option OpId) → List OpId → Prop
  | _, [] => True
  | prev, id :: rest =>
    (f.operation id).prev = prev ∧ (f.operation id).next = rest.head?.or next ∧
      Linked f next (some id) rest

section Linked

variable {f g : Function} {prev next : Option OpId}

theorem linked_append {first second : List OpId} :
    Linked f next prev (first ++ second) ↔
      Linked f (second.head?.or next) prev first ∧
        Linked f next (first.getLast?.or prev) second := by
  induction first generalizing prev with
  | nil => simp [Linked]
  | cons id rest ih =>
    simp only [cons_append, Linked, ih, head?_append, getLast?_cons, Option.or_assoc, and_assoc]
    cases rest.getLast? <;> simp

theorem Linked.congr {ids : List OpId} (h : Linked f next prev ids)
    (hsame : ∀ id ∈ ids, (g.operation id).prev = (f.operation id).prev ∧
      (g.operation id).next = (f.operation id).next) : Linked g next prev ids := by
  induction ids generalizing prev with
  | nil => trivial
  | cons id rest ih =>
    obtain ⟨hprev, hnext, hrest⟩ := h
    obtain ⟨hp, hn⟩ := hsame id (.head _)
    exact ⟨hp.trans hprev, hn.trans hnext, ih hrest fun x hx => hsame x (.tail id hx)⟩

/-- The successor of a linked list may change, if its last operation is linked to the new one. -/
theorem Linked.set_next {ids : List OpId} {next' : Option OpId} (h : Linked f next prev ids)
    (hnodup : ids.Nodup)
    (hprev : ∀ id ∈ ids, (g.operation id).prev = (f.operation id).prev)
    (hlast : ∀ id, ids.getLast? = some id → (g.operation id).next = next')
    (hnext : ∀ id ∈ ids, ids.getLast? ≠ some id →
      (g.operation id).next = (f.operation id).next) : Linked g next' prev ids := by
  rcases eq_nil_or_concat ids with rfl | ⟨init, last, rfl⟩
  · trivial
  · rw [concat_eq_append] at *
    rw [linked_append] at h ⊢
    obtain ⟨hinit, hlastPrev, -, -⟩ := h
    refine ⟨hinit.congr fun id hid => ⟨hprev id (by simp [hid]), hnext id (by simp [hid]) ?_⟩,
      (hprev last (by simp)).trans hlastPrev, hlast last (by simp), trivial⟩
    rw [getLast?_append]
    rintro ⟨⟩
    exact (nodup_append.mp hnodup).2.2 last hid last (by simp) rfl

/-- A part of a linked list is replaced, and the operations next to it are linked to the new
part. -/
theorem Linked.splice {before old new after : List OpId}
    (h : Linked f none none (before ++ (old ++ after))) (hnodup : (before ++ after).Nodup)
    (hnew : Linked g after.head? before.getLast? new)
    (hrest : ∀ x ∈ before ++ after,
      (g.operation x).prev =
        (if after.head? = some x then (before ++ new).getLast? else (f.operation x).prev) ∧
      (g.operation x).next =
        if before.getLast? = some x then (new ++ after).head? else (f.operation x).next) :
    Linked g none none (before ++ (new ++ after)) := by
  obtain ⟨hbefore, hafter, hapart⟩ := nodup_append.mp hnodup
  rw [linked_append, linked_append] at h ⊢
  refine ⟨h.1.set_next hbefore (fun x hx => ?_) (fun x hx => ?_) (fun x hx hlast => ?_),
    by simpa using hnew, ?_⟩
  · rw [(hrest x (mem_append_left _ hx)).1, if_neg]
    exact fun hhead => hapart x hx x (mem_of_head? hhead) rfl
  · rw [(hrest x (mem_append_left _ (mem_of_getLast? hx))).2, if_pos hx, Option.or_none]
  · rw [(hrest x (mem_append_left _ hx)).2, if_neg hlast]
  · have hnext : ∀ x ∈ after, (g.operation x).next = (f.operation x).next := by
      intro x hx
      rw [(hrest x (mem_append_right _ hx)).2, if_neg]
      exact fun hlast => hapart x (mem_of_getLast? hlast) x hx rfl
    cases after with
    | nil => trivial
    | cons y rest =>
      obtain ⟨-, -, hy, hlinks⟩ := h.2
      refine ⟨?_, (hnext y (.head _)).trans hy,
        hlinks.congr fun x hx => ⟨?_, hnext x (.tail y hx)⟩⟩
      · rw [(hrest y (by simp)).1]
        simp
      · rw [(hrest x (by simp [hx])).1, if_neg]
        rintro ⟨⟩
        exact (nodup_cons.mp hafter).1 hx

end Linked

theorem chain_eq {f : Function} {prev : Option OpId} {ids : List OpId}
    (h : Linked f none prev ids) (fuel : Nat) (hfuel : ids.length ≤ fuel) :
    f.chain fuel ids.head? = ids := by
  induction ids generalizing prev fuel with
  | nil => cases fuel <;> rfl
  | cons id rest ih =>
    obtain ⟨-, hnext, hrest⟩ := h
    cases fuel with
    | zero => simp at hfuel
    | succ fuel =>
      simp only [head?_cons, chain, hnext, Option.or_none]
      rw [ih hrest fuel (by simpa using hfuel)]

/-- `code` tells which operations stand in which block. -/
structure Layout (f : Function) (code : BlockId → List OpId) : Prop where
  first : ∀ b, (f.block b).first = (code b).head?
  last : ∀ b, (f.block b).last = (code b).getLast?
  linked : ∀ b, Linked f none none (code b)
  nodup : ∀ b, (code b).Nodup
  live : ∀ b, ∀ id ∈ code b, (f.operation id).live = true
  owner : ∀ b, ∀ id ∈ code b, (f.operation id).block = b
  complete : ∀ id, (f.operation id).live = true → id ∈ code (f.operation id).block

/-- A list of distinct operations of a pool is no longer than the pool. -/
theorem length_le_of_nodup {ids : List OpId} {n : Nat} (hnodup : ids.Nodup)
    (hlt : ∀ id ∈ ids, id.index < n) : ids.length ≤ n := by
  have hinj : (ids.map OpId.index).Nodup :=
    List.Nodup.map (fun a b h => by cases a; cases b; simpa using h) hnodup
  have hsub : ids.map OpId.index ⊆ range n := by
    intro i hi
    obtain ⟨id, hid, rfl⟩ := mem_map.mp hi
    exact mem_range.mpr (hlt id hid)
  simpa using hinj.length_le_of_subset hsub

namespace Layout

variable {f : Function} {code : BlockId → List OpId} {b : BlockId} {id : OpId}

section

variable (h : Layout f code)

include h

theorem lt_size (hid : id ∈ code b) : id.index < f.operations.size :=
  f.lt_size_of_live (h.live b id hid)

/-- The layout of a function is what its links say. -/
theorem blockOperations_eq : f.blockOperations = code := by
  funext b
  rw [blockOperations, h.first]
  exact chain_eq (h.linked b) _ (length_le_of_nodup (h.nodup b) fun id hid => h.lt_size hid)

theorem not_mem_fresh (b : BlockId) : (⟨f.operations.size⟩ : OpId) ∉ code b := by
  intro hmem
  exact Nat.lt_irrefl _ (h.lt_size hmem)

theorem eq_block {c : BlockId} (hb : id ∈ code b) (hc : id ∈ code c) : b = c :=
  (h.owner b id hb).symm.trans (h.owner c id hc)

theorem mem_iff : id ∈ code b ↔ (f.operation id).live = true ∧ (f.operation id).block = b := by
  refine ⟨fun hid => ⟨h.live b id hid, h.owner b id hid⟩, ?_⟩
  rintro ⟨hlive, rfl⟩
  exact h.complete id hlive

/-- Only the ends and links of blocks, and the owners of live operations, matter to a layout. -/
theorem congr {g : Function}
    (hblocks : ∀ b, (g.block b).first = (f.block b).first ∧ (g.block b).last = (f.block b).last)
    (hops : ∀ id, (g.operation id).prev = (f.operation id).prev ∧
      (g.operation id).next = (f.operation id).next ∧
      (g.operation id).live = (f.operation id).live ∧
      (g.operation id).block = (f.operation id).block) : Layout g code where
  first b := (hblocks b).1.trans (h.first b)
  last b := (hblocks b).2.trans (h.last b)
  linked b := (h.linked b).congr fun id _ => ⟨(hops id).1, (hops id).2.1⟩
  nodup := h.nodup
  live b id hid := (hops id).2.2.1.trans (h.live b id hid)
  owner b id hid := (hops id).2.2.2.trans (h.owner b id hid)
  complete id hid := by
    rw [(hops id).2.2.2]
    exact h.complete id ((hops id).2.2.1 ▸ hid)

theorem block_lt_size (hid : id ∈ code b) : b.index < f.blocks.size := by
  by_contra hlt
  have hfirst := h.first b
  rw [show f.block b = default by simp [block, hlt]] at hfirst
  cases hcode : code b with
  | nil => simp [hcode] at hid
  | cons x rest => rw [hcode] at hfirst; cases hfirst

end

end Layout

/-- In one block, `new` takes the place of `old`. Only the links next to it change. -/
theorem Layout.splice {f g : Function} {code : BlockId → List OpId} (h : Layout f code)
    {b : BlockId} (before old new after : List OpId) (hb : code b = before ++ (old ++ after))
    (hfresh : ∀ c, ∀ x ∈ new, x ∉ code c) (hnodup : new.Nodup)
    (hlinked : Linked g after.head? before.getLast? new)
    (hnew : ∀ x ∈ new, (g.operation x).live = true ∧ (g.operation x).block = b)
    (hold : ∀ x ∈ old, (g.operation x).live = false)
    (hrest : ∀ x, x ∉ old → x ∉ new →
      (g.operation x).prev =
        (if after.head? = some x then (before ++ new).getLast? else (f.operation x).prev) ∧
      (g.operation x).next =
        (if before.getLast? = some x then (new ++ after).head? else (f.operation x).next) ∧
      (g.operation x).live = (f.operation x).live ∧ (g.operation x).block = (f.operation x).block)
    (hends : ∀ c, (g.block c).first = (update code b (before ++ (new ++ after)) c).head? ∧
      (g.block c).last = (update code b (before ++ (new ++ after)) c).getLast?) :
    Layout g (update code b (before ++ (new ++ after))) := by
  have hcode := h.nodup b
  rw [hb] at hcode
  have hleft := hcode.sublist ((Sublist.refl before).append (sublist_append_right old after))
  have hkept : ∀ x ∈ before ++ after, x ∈ code b ∧ x ∉ old := by
    intro x hx
    have hperm := perm_append_comm_assoc before old after
    refine ⟨hb ▸ hperm.mem_iff.mpr (mem_append_right _ hx), fun hmem => ?_⟩
    exact (nodup_append.mp (hperm.nodup_iff.mp hcode)).2.2 x hmem x hx rfl
  have hother : ∀ c, c ≠ b → ∀ x ∈ code c, x ∉ old := fun c hc x hx hmem =>
    hc (h.eq_block hx (by simp [hb, hmem]))
  have hsame := fun c x (hx : x ∈ code c) (hxold : x ∉ old) =>
    hrest x hxold fun hmem => hfresh c x hmem hx
  -- every operation of the new layout is new, or was there and stays as it is
  have hcases : ∀ c, ∀ x ∈ update code b (before ++ (new ++ after)) c,
      (c = b ∧ x ∈ new) ∨ (x ∈ code c ∧ x ∉ old) := by
    intro c x hx
    by_cases hc : c = b
    · subst hc
      rw [update_self, (perm_append_comm_assoc before new after).mem_iff, mem_append] at hx
      exact hx.imp (fun hx => ⟨rfl, hx⟩) (hkept x)
    · rw [update_of_ne hc] at hx
      exact .inr ⟨hx, hother c hc x hx⟩
  refine ⟨fun c => (hends c).1, fun c => (hends c).2, ?_, ?_, ?_, ?_, ?_⟩
  · intro c
    by_cases hc : c = b
    · subst hc
      rw [update_self]
      refine (hb ▸ h.linked c).splice hleft hlinked fun x hx => ?_
      obtain ⟨hp, hn, -⟩ := hsame c x (hkept x hx).1 (hkept x hx).2
      exact ⟨hp, hn⟩
    · rw [update_of_ne hc]
      refine (h.linked c).congr fun x hx => ?_
      obtain ⟨hp, hn, -, -⟩ := hsame c x hx (hother c hc x hx)
      have hnot : x ∉ before ++ after := fun hmem => hc (h.eq_block hx (hkept x hmem).1)
      rw [hp, hn, if_neg, if_neg]
      · exact ⟨rfl, rfl⟩
      · exact fun hlast => hnot (mem_append_left _ (mem_of_getLast? hlast))
      · exact fun hhead => hnot (mem_append_right _ (mem_of_head? hhead))
  · intro c
    by_cases hc : c = b
    · subst hc
      rw [update_self, (perm_append_comm_assoc before new after).nodup_iff]
      exact nodup_append.mpr ⟨hnodup, hleft, fun x hx y hy heq =>
        hfresh c y (heq ▸ hx) (hkept y hy).1⟩
    · rw [update_of_ne hc]
      exact h.nodup c
  · intro c x hx
    rcases hcases c x hx with ⟨-, hmem⟩ | ⟨hmem, hxold⟩
    · exact (hnew x hmem).1
    · rw [(hsame c x hmem hxold).2.2.1]
      exact h.live c x hmem
  · intro c x hx
    rcases hcases c x hx with ⟨hc, hmem⟩ | ⟨hmem, hxold⟩
    · exact (hnew x hmem).2.trans hc.symm
    · rw [(hsame c x hmem hxold).2.2.2]
      exact h.owner c x hmem
  · intro x hx
    by_cases hxnew : x ∈ new
    · rw [(hnew x hxnew).2]
      simp [hxnew]
    · have hxold : x ∉ old := fun hmem => by simp [hold x hmem] at hx
      rw [(hrest x hxold hxnew).2.2.1] at hx
      rw [(hrest x hxold hxnew).2.2.2]
      have hin := h.complete x hx
      by_cases hc : (f.operation x).block = b
      · rw [hc]
        rw [hc, hb] at hin
        simpa [hxold, hxnew] using hin
      · rwa [update_of_ne hc]

/-! ### Insertion -/

section Insert

variable {f : Function} {code : BlockId → List OpId} {b : BlockId}
variable (inst : Instruction) (dest : Option OperandId) (sources : List OperandId) {anchor x : OpId}
  {before after : List OpId}

section

variable (h : Layout f code) (hb : code b = before ++ x :: after)

include h hb

theorem Layout.prev_eq : (f.operation x).prev = before.getLast? := by
  have hlinked := h.linked b
  rw [hb, linked_append] at hlinked
  simpa using hlinked.2.1

theorem Layout.next_eq : (f.operation x).next = after.head? := by
  have hlinked := h.linked b
  rw [hb, linked_append] at hlinked
  simpa using hlinked.2.2.1

theorem Layout.lt_size_prev {p : OpId}
    (hp : (f.operation x).prev = some p) : p.index < f.operations.size := by
  rw [h.prev_eq hb] at hp
  exact h.lt_size (hb ▸ mem_append_left _ (mem_of_getLast? hp))

end

theorem ne_fresh (hx : x.index < f.operations.size) : x ≠ ⟨f.operations.size⟩ := by
  rintro rfl
  exact Nat.lt_irrefl _ hx

theorem operation_create_of_lt (hx : x.index < f.operations.size) :
    (f.create b inst dest sources).2.operation x = f.operation x :=
  (f.operation_create b inst dest sources x).trans (if_neg (ne_fresh hx))

/-- The links of every operation after an insertion before `anchor`. -/
theorem Layout.operation_pushBefore (h : Layout f code) (hb : code b = before ++ anchor :: after)
    (x : OpId) :
    (f.pushBefore anchor inst dest sources).2.operation x =
      if x = ⟨f.operations.size⟩ then
        { Operation.fresh (f.operation anchor).block inst dest sources with
          prev := (f.operation anchor).prev, next := some anchor }
      else
        { f.operation x with
          prev := if x = anchor then some ⟨f.operations.size⟩ else (f.operation x).prev
          next := if (f.operation anchor).prev = some x then some ⟨f.operations.size⟩
            else (f.operation x).next } := by
  have hanchor : anchor.index < f.operations.size := h.lt_size (b := b) (by simp [hb])
  have hne := ne_fresh hanchor
  simp only [Function.pushBefore, operation_create_of_lt inst dest sources hanchor]
  rw [operation_linkForward]
  · simp only [setPrev, setNext, operation_modifyOperation, operation_create]
    by_cases hx : x = ⟨f.operations.size⟩
    · subst hx
      have hnone : (f.operation anchor).prev ≠ some ⟨f.operations.size⟩ := fun hp =>
        Nat.lt_irrefl _ (h.lt_size_prev hb hp)
      simp [hne.symm, hnone]
    · by_cases hxa : x = anchor
      · subst hxa
        by_cases hp : (f.operation x).prev = some x <;> simp [hx, hp, Nat.lt_succ_of_lt hanchor]
      · by_cases hp : (f.operation anchor).prev = some x <;> simp [hx, hxa, hp]
  · intro p hp
    simpa using Nat.lt_succ_of_lt (h.lt_size_prev hb hp)

theorem block_pushBefore (hanchor : anchor.index < f.operations.size) (c : BlockId) :
    (f.pushBefore anchor inst dest sources).2.block c =
      if c = (f.operation anchor).block ∧ c.index < f.blocks.size ∧
          (f.operation anchor).prev = none then
        { f.block c with first := some ⟨f.operations.size⟩ }
      else f.block c := by
  simp only [pushBefore, operation_create_of_lt inst dest sources hanchor]
  rw [block_linkForward]
  simp [setPrev, setNext, block_create]

theorem Layout.pushBefore (h : Layout f code) (hb : code b = before ++ anchor :: after) :
    Layout (f.pushBefore anchor inst dest sources).2
      (update code b (before ++ ⟨f.operations.size⟩ :: anchor :: after)) := by
  have hmem : anchor ∈ code b := by simp [hb]
  have hlt := h.lt_size hmem
  have howner := h.owner b anchor hmem
  have hprev := h.prev_eq hb
  have hop := h.operation_pushBefore inst dest sources hb
  refine h.splice before [] [⟨f.operations.size⟩] (anchor :: after) hb ?_ (nodup_singleton _)
    ?_ ?_ (by simp) ?_ ?_
  · rintro c x (_ | ⟨_, ⟨⟩⟩)
    exact h.not_mem_fresh c
  · simpa [Linked, hop] using hprev
  · simpa [hop] using ⟨rfl, howner⟩
  · intro x _ hx
    rw [hop, if_neg (by simpa using hx), hprev]
    simp [eq_comm]
  · intro c
    rw [block_pushBefore inst dest sources hlt, howner, hprev]
    by_cases hc : c = b
    · subst hc
      have hfirst := h.first c
      have hlast := h.last c
      rw [hb] at hfirst hlast
      rw [update_self]
      cases before with
      | nil => simpa [h.block_lt_size hmem] using hlast
      | cons y rest =>
        simp only [getLast?_cons, reduceCtorEq, and_false]
        refine ⟨by simpa using hfirst, hlast.trans ?_⟩
        simp [getLast?_cons]
    · simp [hc, h.first, h.last]

/-- The links of every operation after an addition at the end of a block. -/
theorem Layout.operation_pushBack (h : Layout f code) (x : OpId) :
    (f.pushBack b inst dest sources).2.operation x =
      if x = ⟨f.operations.size⟩ then
        { Operation.fresh b inst dest sources with prev := (f.block b).last }
      else
        { f.operation x with
          next := if (f.block b).last = some x then some ⟨f.operations.size⟩
            else (f.operation x).next } := by
  have hlast : ∀ p, (f.block b).last = some p → p.index < f.operations.size := by
    intro p hp
    rw [h.last b] at hp
    exact h.lt_size (mem_of_getLast? hp)
  simp only [Function.pushBack, block_create, operation_modifyBlock]
  rw [operation_linkForward]
  · simp only [setPrev, operation_modifyOperation, operation_create]
    by_cases hx : x = ⟨f.operations.size⟩
    · subst hx
      have hnone : (f.block b).last ≠ some ⟨f.operations.size⟩ := fun hp =>
        Nat.lt_irrefl _ (hlast _ hp)
      simp [hnone]
    · by_cases hp : (f.block b).last = some x <;> simp [hx, hp]
  · intro p hp
    simpa using Nat.lt_succ_of_lt (hlast p hp)

theorem block_pushBack (hb : b.index < f.blocks.size) (c : BlockId) :
    (f.pushBack b inst dest sources).2.block c =
      if c = b then
        { f.block c with
          first := if (f.block b).last = none then some ⟨f.operations.size⟩ else (f.block c).first
          last := some ⟨f.operations.size⟩ }
      else f.block c := by
  simp only [Function.pushBack, block_modifyBlock, block_linkForward]
  by_cases hc : c = b
  · subst hc
    by_cases hp : (f.block c).last = none <;> simp [setPrev, block_create, hb, hp]
  · simp [setPrev, block_create, hc]

theorem Layout.pushBack (h : Layout f code) (hb : b.index < f.blocks.size) :
    Layout (f.pushBack b inst dest sources).2
      (update code b (code b ++ [⟨f.operations.size⟩])) := by
  have hlast := h.last b
  have hop := h.operation_pushBack (b := b) inst dest sources
  refine h.splice (code b) [] [⟨f.operations.size⟩] [] (by simp) ?_ (nodup_singleton _)
    ?_ ?_ (by simp) ?_ ?_
  · rintro c x (_ | ⟨_, ⟨⟩⟩)
    exact h.not_mem_fresh c
  · simpa [Linked, hop, Operation.fresh] using hlast
  · simp [hop, Operation.fresh]
  · intro x _ hx
    rw [hop, if_neg (by simpa using hx), hlast]
    simp
  · intro c
    rw [block_pushBack inst dest sources hb]
    by_cases hc : c = b
    · subst hc
      simp only [↓reduceIte, hlast, getLast?_eq_none_iff, update_self]
      refine ⟨?_, by simp⟩
      split
      next hnil => simp [hnil]
      next hne =>
        rw [h.first]
        cases hcode : code c with
        | nil => exact absurd hcode hne
        | cons y rest => rfl
    · simp [hc, h.first, h.last]

end Insert

/-! ### Removal -/

section Remove

variable {f : Function} {code : BlockId → List OpId} {b : BlockId} {old : OpId}
  {before after : List OpId}

/-- What is left when the neighbours of an operation are linked to each other. -/
def unlinked (f : Function) (id : OpId) : Function :=
  (f.linkForward (f.operation id).block (f.operation id).prev (f.operation id).next).linkBackward
    (f.operation id).block (f.operation id).prev (f.operation id).next

theorem remove_eq (hlive : (f.operation old).live = true) : f.remove old =
    (((f.unlinked old).eraseUses old (f.operation old).sources).eraseDest old
      (f.operation old).dest).modifyOperation old
        fun op => { op with live := false, prev := none, next := none } := by
  rw [remove, if_neg (by simp [hlive])]
  rfl

theorem relisted_unlinked : Relisted (f.unlinked old)
    (((f.unlinked old).eraseUses old (f.operation old).sources).eraseDest old
      (f.operation old).dest) :=
  (relisted_eraseUses _ _ _).trans (relisted_eraseDest _ _ _)

/-- The links of every operation after the removal of `old`. -/
theorem Layout.operation_remove (h : Layout f code) (hb : code b = before ++ old :: after)
    (x : OpId) :
    (f.remove old).operation x =
      if x = old then { f.operation old with live := false, prev := none, next := none }
      else
        { f.operation x with
          prev := if (f.operation old).next = some x then (f.operation old).prev
            else (f.operation x).prev
          next := if (f.operation old).prev = some x then (f.operation old).next
            else (f.operation x).next } := by
  have hlive := h.live b old (by simp [hb])
  have hlt := f.lt_size_of_live hlive
  rw [remove_eq hlive, operation_modifyOperation, relisted_unlinked.operations,
    relisted_unlinked.operation, unlinked, operation_linkBackward, operation_linkForward]
  · by_cases hx : x = old
    · subst hx
      simp [hlt]
    · simp only [hx, false_and, ↓reduceIte]
      split <;> split <;> simp_all
  · exact fun p hp => h.lt_size_prev hb hp
  · intro n hn
    rw [h.next_eq hb] at hn
    have hmem : n ∈ code b := by simp [hb, mem_of_head? hn]
    simpa using h.lt_size hmem

/-- A removal changes links, and what is removed is no longer live. -/
theorem Layout.contents_remove (h : Layout f code) (hlive : (f.operation old).live = true)
    (x : OpId) :
    ((f.remove old).operation x).live = ((f.operation x).live && x != old) ∧
      ((f.remove old).operation x).inst = (f.operation x).inst ∧
      ((f.remove old).operation x).dest = (f.operation x).dest ∧
      ((f.remove old).operation x).sources = (f.operation x).sources := by
  obtain ⟨before, after, hb⟩ := append_of_mem (h.complete old hlive)
  rw [h.operation_remove hb]
  split
  next hx =>
    subst hx
    exact ⟨by simp, rfl, rfl, rfl⟩
  next hx => exact ⟨by simp [hx], rfl, rfl, rfl⟩

theorem block_remove (hlive : (f.operation old).live = true) (c : BlockId) :
    (f.remove old).block c =
      if c = (f.operation old).block ∧ c.index < f.blocks.size then
        { f.block c with
          first := if (f.operation old).prev = none then (f.operation old).next
            else (f.block c).first
          last := if (f.operation old).next = none then (f.operation old).prev
            else (f.block c).last }
      else f.block c := by
  rw [remove_eq hlive, block_modifyOperation, relisted_unlinked.block, unlinked]
  simp only [block_linkBackward, block_linkForward, ← and_assoc]
  by_cases hc : c = (f.operation old).block ∧ c.index < f.blocks.size
  · obtain ⟨rfl, hlt⟩ := hc
    by_cases hp : (f.operation old).prev = none <;>
      by_cases hn : (f.operation old).next = none <;> simp [hlt, hp, hn]
  · simp [hc]

theorem Layout.remove (h : Layout f code) (hb : code b = before ++ old :: after) :
    Layout (f.remove old) (update code b (before ++ after)) := by
  have hmem : old ∈ code b := by simp [hb]
  have hlive := h.live b old hmem
  have howner := h.owner b old hmem
  have hprev := h.prev_eq hb
  have hnext := h.next_eq hb
  have hop := h.operation_remove hb
  refine h.splice before [old] [] after hb (by simp) nodup_nil trivial (by simp) ?_ ?_ ?_
  · simp [hop]
  · intro x hx _
    rw [hop, if_neg (by simpa using hx), hprev, hnext]
    simp
  · intro c
    rw [block_remove hlive, howner]
    by_cases hc : c = b
    · subst hc
      have hfirst := h.first c
      have hlast := h.last c
      simp only [h.block_lt_size hmem, update_self]
      constructor
      · cases before <;> simp_all
      · rcases eq_nil_or_concat after with rfl | ⟨init, last, rfl⟩ <;>
          simp_all [getLast?_cons]
    · simp [hc, h.first, h.last]

/-- Every block is left without the operation. -/
theorem Layout.blockOperations_remove (h : Layout f code) (hlive : (f.operation old).live = true)
    (b : BlockId) : (f.remove old).blockOperations b = (code b).filter fun e => e ≠ old := by
  have hold := h.complete old hlive
  obtain ⟨before, after, hcode⟩ := append_of_mem hold
  rw [(h.remove hcode).blockOperations_eq]
  by_cases hb : b = (f.operation old).block
  · subst hb
    have hnodup := h.nodup (f.operation old).block
    rw [hcode, nodup_append, nodup_cons] at hnodup
    have hbefore : ∀ x ∈ before, x ≠ old := fun x hx => hnodup.2.2 x hx old (.head _)
    have hafter : ∀ x ∈ after, x ≠ old := fun x hx heq => hnodup.2.1.1 (heq ▸ hx)
    rw [update_self, hcode, filter_append, filter_cons_of_neg (by simp),
      filter_eq_self.mpr (by simpa using hbefore), filter_eq_self.mpr (by simpa using hafter)]
  · rw [update_of_ne hb, eq_comm, filter_eq_self]
    intro x hx
    simpa using fun heq : x = old => hb (h.eq_block hx (heq ▸ hold))

end Remove

end Dynarec.IR.Function
