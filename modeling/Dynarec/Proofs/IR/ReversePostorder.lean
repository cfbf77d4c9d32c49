import Dynarec.IR.Dominators
import Dynarec.Proofs.IR.Paths

/-!
# Reverse postorder

The depth-first search comes to just the blocks that can be reached, each once. In the order it
gives, the entry comes first and every other block comes after one of its predecessors.
-/

namespace Dynarec.IR

open List

def Precedes (l : List BlockId) (a b : BlockId) : Prop :=
  ∃ before after, l = before ++ b :: after ∧ a ∈ before

namespace Precedes

variable {l : List BlockId} {a b : BlockId}

theorem append_left (h : Precedes l a b) (first : List BlockId) : Precedes (first ++ l) a b := by
  obtain ⟨before, after, rfl, ha⟩ := h
  exact ⟨first ++ before, after, by simp, mem_append_right _ ha⟩

theorem append_right (h : Precedes l a b) (rest : List BlockId) : Precedes (l ++ rest) a b := by
  obtain ⟨before, after, rfl, ha⟩ := h
  exact ⟨before, after ++ rest, by simp, ha⟩

theorem cons_self (hb : b ∈ l) : Precedes (a :: l) a b := by
  obtain ⟨before, after, rfl⟩ := append_of_mem hb
  exact ⟨a :: before, after, rfl, .head _⟩

theorem idxOf_lt (h : Precedes l a b) (hnodup : l.Nodup) : l.idxOf a < l.idxOf b := by
  obtain ⟨before, after, rfl, ha⟩ := h
  have hb : b ∉ before := fun hb =>
    (nodup_append.mp hnodup).2.2 b hb b (.head _) rfl
  rw [idxOf_append_of_mem ha, idxOf_append_of_notMem hb]
  exact (idxOf_lt_length_of_mem ha).trans_le (Nat.le_add_right _ _)

end Precedes

namespace Search

variable {f : Function} {s s' : Search} {b : BlockId} {roots new : List BlockId}

structure Explores (f : Function) (from_ : List BlockId) (s s' : Search) (new : List BlockId) :
    Prop where
  order : s'.order = new ++ s.order
  visited : ∀ x, x ∈ s'.visited ↔ x ∈ s.visited ∨ x ∈ new
  nodup : new.Nodup
  fresh : ∀ x ∈ new, x ∉ s.visited
  roots : ∀ x ∈ from_, x ∈ s'.visited
  closed : ∀ x ∈ new, ∀ y ∈ f.successors x, y ∈ s'.visited
  earlier : ∀ x ∈ new, x ∈ from_ ∨ ∃ y ∈ new, x ∈ f.successors y ∧ Precedes new y x
  sound : ∀ P : BlockId → Prop, (∀ x ∈ from_, P x) →
    (∀ x y, P x → y ∈ f.successors x → P y) → ∀ x ∈ new, P x

theorem Explores.nil (s : Search) : Explores f [] s s [] where
  order := rfl
  visited x := by simp
  nodup := nodup_nil
  fresh := forall_mem_nil _
  roots := forall_mem_nil _
  closed := forall_mem_nil _
  earlier := forall_mem_nil _
  sound _ _ _ := forall_mem_nil _

theorem Explores.of_visited (hb : b ∈ s.visited) : Explores f [b] s s [] where
  order := rfl
  visited x := by simp
  nodup := nodup_nil
  fresh := forall_mem_nil _
  roots x hx := mem_singleton.mp hx ▸ hb
  closed := forall_mem_nil _
  earlier := forall_mem_nil _
  sound _ _ _ := forall_mem_nil _

theorem Explores.trans {s₁ s₂ s₃ : Search} {new₁ new₂ : List BlockId}
    (h₁ : Explores f [b] s₁ s₂ new₁) (h₂ : Explores f roots s₂ s₃ new₂) :
    Explores f (b :: roots) s₁ s₃ (new₂ ++ new₁) where
  order := by rw [h₂.order, h₁.order, append_assoc]
  visited x := by
    rw [h₂.visited, h₁.visited, mem_append]
    tauto
  nodup := by
    refine nodup_append.mpr ⟨h₂.nodup, h₁.nodup, ?_⟩
    rintro x hx y hy rfl
    exact h₂.fresh x hx ((h₁.visited x).mpr (.inr hy))
  fresh x hx hs := by
    rcases mem_append.mp hx with hx | hx
    · exact h₂.fresh x hx ((h₁.visited x).mpr (.inl hs))
    · exact h₁.fresh x hx hs
  roots x hx := by
    rcases mem_cons.mp hx with rfl | hx
    · exact (h₂.visited x).mpr (.inl (h₁.roots x (.head _)))
    · exact h₂.roots x hx
  closed x hx y hy := by
    rcases mem_append.mp hx with hx | hx
    · exact h₂.closed x hx y hy
    · exact (h₂.visited y).mpr (.inl (h₁.closed x hx y hy))
  earlier x hx := by
    rcases mem_append.mp hx with hx | hx
    · rcases h₂.earlier x hx with hr | ⟨y, hy, hsucc, hprec⟩
      · exact .inl (.tail _ hr)
      · exact .inr ⟨y, mem_append_left _ hy, hsucc, hprec.append_right _⟩
    · rcases h₁.earlier x hx with hr | ⟨y, hy, hsucc, hprec⟩
      · exact .inl (mem_singleton.mp hr ▸ .head _)
      · exact .inr ⟨y, mem_append_right _ hy, hsucc, hprec.append_left _⟩
  sound P hroots hstep x hx := by
    rcases mem_append.mp hx with hx | hx
    · exact h₂.sound P (fun y hy => hroots y (.tail _ hy)) hstep x hx
    · exact h₁.sound P (fun y hy => hroots y (mem_singleton.mp hy ▸ .head _)) hstep x hx

/-- Searching the successors of a new block explores from that block. -/
theorem Explores.finish (hb : b ∉ s.visited) (hroots : ∀ x, x ∈ roots ↔ x ∈ f.successors b)
    (h : Explores f roots { s with visited := b :: s.visited } s' new) :
    Explores f [b] s { s' with order := b :: s'.order } (b :: new) where
  order := by rw [h.order]; rfl
  visited x := by
    rw [h.visited, mem_cons, mem_cons]
    tauto
  nodup := nodup_cons.mpr ⟨fun hmem => h.fresh b hmem (.head _), h.nodup⟩
  fresh x hx hs := by
    rcases mem_cons.mp hx with rfl | hx
    · exact hb hs
    · exact h.fresh x hx (.tail _ hs)
  roots x hx := by
    rw [mem_singleton] at hx
    exact (h.visited x).mpr (.inl (hx ▸ .head _))
  closed x hx y hy := by
    rcases mem_cons.mp hx with rfl | hx
    · exact h.roots y ((hroots y).mpr hy)
    · exact h.closed x hx y hy
  earlier x hx := by
    rcases mem_cons.mp hx with rfl | hx
    · exact .inl (.head _)
    · rcases h.earlier x hx with hr | ⟨y, hy, hsucc, hprec⟩
      · exact .inr ⟨b, .head _, (hroots x).mp hr, .cons_self hx⟩
      · exact .inr ⟨y, .tail _ hy, hsucc, hprec.append_left [b]⟩
  sound P hP hstep x hx := by
    have hbP := hP b (.head _)
    rcases mem_cons.mp hx with rfl | hx
    · exact hbP
    · exact h.sound P (fun y hy => hstep b y hbP ((hroots y).mp hy)) hstep x hx

def unvisited (f : Function) (s : Search) : Nat :=
  (f.blockIds.filter fun b => !s.visited.contains b).length

theorem Explores.unvisited_le (h : Explores f roots s s' new) : unvisited f s' ≤ unvisited f s := by
  refine List.Sublist.length_le (monotone_filter_right _ fun b => ?_)
  simp only [Bool.not_eq_true', contains_eq_mem, decide_eq_false_iff_not]
  exact fun hb hs => hb ((h.visited b).mpr (.inl hs))

theorem unvisited_lt (hlt : b.index < f.blocks.size) (hb : b ∉ s.visited) :
    unvisited f { s with visited := b :: s.visited } < unvisited f s := by
  have hmem : b ∈ f.blockIds.filter fun c => !s.visited.contains c := by
    rw [mem_filter]
    exact ⟨Function.mem_blockIds.mpr hlt, by simpa using hb⟩
  have hsub : ((f.blockIds.filter fun c => !(b :: s.visited).contains c)) ⊆
      (f.blockIds.filter fun c => !s.visited.contains c).erase b := by
    intro c hc
    simp only [mem_filter, Bool.not_eq_true', contains_eq_mem, decide_eq_false_iff_not,
      mem_cons, not_or] at hc
    refine (mem_erase_of_ne hc.2.1).mpr (mem_filter.mpr ⟨hc.1, ?_⟩)
    simpa using hc.2.2
  have hle := (Function.nodup_blockIds.filter _).length_le_of_subset hsub
  rw [length_erase_of_mem hmem] at hle
  have hpos := length_pos_of_mem hmem
  unfold unvisited
  simp only
  omega

theorem explores_foldl {fuel : Nat}
    (hvisit : ∀ s b, b.index < f.blocks.size → unvisited f s < fuel →
      ∃ new, Explores f [b] s (visit f fuel s b) new)
    (bs : List BlockId) (s : Search) (hbs : ∀ b ∈ bs, b.index < f.blocks.size)
    (hfuel : unvisited f s < fuel) :
    ∃ new, Explores f bs s (bs.foldl (visit f fuel) s) new := by
  induction bs generalizing s with
  | nil => exact ⟨[], .nil s⟩
  | cons b bs ih =>
    obtain ⟨new₁, h₁⟩ := hvisit s b (hbs b (.head _)) hfuel
    obtain ⟨new₂, h₂⟩ := ih (visit f fuel s b) (fun c hc => hbs c (.tail _ hc))
      (h₁.unvisited_le.trans_lt hfuel)
    exact ⟨new₂ ++ new₁, h₁.trans h₂⟩

/-- A search with enough fuel explores all that it can reach. -/
theorem explores_visit (hexist : ∀ b c, c ∈ f.successors b → c.index < f.blocks.size)
    (fuel : Nat) (s : Search) (b : BlockId) (hb : b.index < f.blocks.size)
    (hfuel : unvisited f s < fuel) : ∃ new, Explores f [b] s (visit f fuel s b) new := by
  induction fuel generalizing s b with
  | zero => exact absurd hfuel (Nat.not_lt_zero _)
  | succ fuel ih =>
    rw [visit]
    by_cases hmem : b ∈ s.visited
    · rw [if_pos (by simpa using hmem)]
      exact ⟨[], .of_visited hmem⟩
    · rw [if_neg (by simpa using hmem)]
      obtain ⟨new, h⟩ := explores_foldl ih (f.successors b).reverse
        { s with visited := b :: s.visited } (fun c hc => hexist b c (mem_reverse.mp hc)) (by
          have := unvisited_lt hb hmem
          omega)
      exact ⟨b :: new, h.finish hmem fun x => mem_reverse⟩

end Search

namespace Function

variable {f : Function}

structure Ordered (f : Function) (order : List BlockId) : Prop where
  nodup : order.Nodup
  head : ∃ rest, order = entry :: rest
  mem : ∀ b, b ∈ order ↔ f.program.Reachable b
  earlier : ∀ b ∈ order, b ≠ entry →
    ∃ c ∈ order, b ∈ f.program.successors c ∧ order.idxOf c < order.idxOf b
  length : order.length ≤ f.blocks.size

theorem WellFormed.ordered (h : f.WellFormed) (hentry : 0 < f.blocks.size)
    (hexist : ∀ b c, c ∈ f.program.successors b → c.index < f.blocks.size) :
    f.Ordered f.reversePostorder := by
  have hsucc : ∀ b, f.successors b = f.program.successors b := h.successors_eq
  have hlen : f.blockIds.length = f.blocks.size := by simp [blockIds]
  obtain ⟨new, hnew⟩ := Search.explores_visit (fun b c hc => hexist b c (hsucc b ▸ hc))
    (f.blockCount + 1) ⟨[], []⟩ entry hentry (by
      refine Nat.lt_succ_of_le ((length_filter_le _ _).trans ?_)
      exact hlen.le)
  have horder : f.reversePostorder = new := by
    rw [reversePostorder, hnew.order, append_nil]
  have hvisited : ∀ x, x ∈ (Search.visit f (f.blockCount + 1) ⟨[], []⟩ entry).visited ↔ x ∈ new :=
    fun x => (hnew.visited x).trans (by simp)
  have hmem : ∀ b, b ∈ new ↔ f.program.Reachable b := by
    intro b
    constructor
    · refine hnew.sound _ ?_ ?_ b
      · intro x hx
        rw [mem_singleton.mp hx]
        exact .entry
      · intro x y hx hy
        exact .step hx (hsucc x ▸ hy)
    · intro hb
      induction hb with
      | entry => exact (hvisited _).mp (hnew.roots _ (.head _))
      | step _ hc ih => exact (hvisited _).mp (hnew.closed _ ih _ (hsucc _ ▸ hc))
  rw [horder]
  refine ⟨hnew.nodup, ?_, hmem, ?_, ?_⟩
  · -- the entry finishes last
    cases hnil : new with
    | nil => exact absurd ((hmem entry).mpr .entry) (by simp [hnil])
    | cons b rest =>
      refine ⟨rest, ?_⟩
      rcases hnew.earlier b (by simp [hnil]) with hb | ⟨c, -, -, hprec⟩
      · rw [mem_singleton.mp hb]
      · have := hprec.idxOf_lt hnew.nodup
        rw [hnil, idxOf_cons_self] at this
        exact absurd this (Nat.not_lt_zero _)
  · intro b hb hne
    rcases hnew.earlier b hb with hroot | ⟨c, hc, hbc, hprec⟩
    · exact absurd (mem_singleton.mp hroot) hne
    · exact ⟨c, hc, hsucc c ▸ hbc, hprec.idxOf_lt hnew.nodup⟩
  · rw [← hlen]
    refine hnew.nodup.length_le_of_subset fun b hb => ?_
    rw [mem_blockIds]
    cases (hmem b).mp hb with
    | entry => exact hentry
    | step _ hc => exact hexist _ _ hc

end Function

end Dynarec.IR
