import Dynarec.Proofs.IR.ReversePostorder
import Mathlib.Algebra.GroupWithZero.Nat
import Mathlib.Algebra.Order.BigOperators.Group.List
import Mathlib.Algebra.Order.Group.Nat
import Mathlib.Logic.Relation

/-!
# The dominator tree

The iteration over the reverse postorder settles: every round either changes nothing or moves some
parent up. What it settles at is a tree in which the parent of a block is the closest common
ancestor of its reachable predecessors.
-/

open Function (update_apply update_of_ne update_self)

namespace Dynarec.IR

open List Option Parents
open Dynarec.IR.Function (entry)

variable {order : List BlockId} {up : BlockId → Option BlockId}

inductive Anc (up : BlockId → Option BlockId) : BlockId → BlockId → Prop
  | refl (b : BlockId) : Anc up b b
  | up {a b c : BlockId} (hup : up b = some c) (h : Anc up a c) : Anc up a b

/-- Parents come before their children in the order; the entry is its own parent. -/
structure Forest (order : List BlockId) (up : BlockId → Option BlockId) : Prop where
  entry : up entry = some entry
  mem : ∀ b c, up b = some c → b ∈ order
  lt : ∀ b c, up b = some c → b ≠ Function.entry → order.idxOf c < order.idxOf b
  parent : ∀ b c, up b = some c → (up c).isSome

section Ancestors

variable {a b c x y : BlockId}

theorem Anc.trans (hab : Anc up a b) (hbc : Anc up b c) : Anc up a c := by
  induction hbc with
  | refl => exact hab
  | up hup _ ih => exact .up hup ih

/-- Two blocks above one block are above each other. -/
theorem Anc.total (ha : Anc up a x) (hb : Anc up b x) : Anc up a b ∨ Anc up b a := by
  induction ha with
  | refl => exact .inr hb
  | up hup ha ih =>
    cases hb with
    | refl => exact .inl (.up hup ha)
    | up hup' hb =>
      rw [hup] at hup'
      cases hup'
      exact ih hb

theorem anc_iff_of_up (hup : up b = some c) : Anc up a b ↔ a = b ∨ Anc up a c := by
  constructor
  · intro h
    cases h with
    | refl => exact .inl rfl
    | up hup' h =>
      rw [hup] at hup'
      cases hup'
      exact .inr h
  · rintro (rfl | h)
    · exact .refl _
    · exact .up hup h

/-- What is above a block and one that is not below it is above its parent and the other one. -/
theorem anc_and_iff (hup : up a = some c) (hab : ¬Anc up a b) :
    Anc up x c ∧ Anc up x b ↔ Anc up x a ∧ Anc up x b := by
  rw [anc_iff_of_up hup, or_and_right, or_iff_right]
  rintro ⟨rfl, hb⟩
  exact hab hb

theorem Anc.processed (F : Forest order up) (h : Anc up a b) (hb : (up b).isSome) :
    (up a).isSome := by
  induction h with
  | refl => exact hb
  | up hup _ ih => exact ih (F.parent _ _ hup)

namespace Forest

variable (F : Forest order up)

include F

theorem anc_entry : Anc up a Function.entry ↔ a = Function.entry := by
  constructor
  · intro h
    generalize he : Function.entry = e at h ⊢
    induction h with
    | refl => rfl
    | up hup _ ih =>
      subst he
      rw [F.entry] at hup
      cases hup
      exact ih rfl
  · rintro rfl
    exact .refl _

/-- The entry is above every block that has a parent. -/
theorem entry_anc (hx : (up x).isSome) : Anc up Function.entry x := by
  induction hn : order.idxOf x using Nat.strongRecOn generalizing x with
  | ind n ih =>
    by_cases hxe : x = Function.entry
    · exact hxe ▸ .refl _
    · obtain ⟨c, hc⟩ := isSome_iff_exists.mp hx
      exact .up hc (ih _ (hn ▸ F.lt x c hc hxe) (F.parent x c hc) rfl)

theorem idxOf_le (h : Anc up a b) : order.idxOf a ≤ order.idxOf b := by
  induction h with
  | refl => exact le_rfl
  | @up b' c' hup _ ih =>
    by_cases hb : b' = Function.entry
    · subst hb
      rw [F.entry] at hup
      cases hup
      exact ih
    · exact ih.trans (F.lt _ _ hup hb).le

theorem not_anc (hlt : order.idxOf b < order.idxOf a) : ¬Anc up a b := fun h =>
  absurd (F.idxOf_le h) hlt.not_ge

theorem not_anc_parent (hb : b ≠ Function.entry) (hup : up b = some c) : ¬Anc up b c :=
  F.not_anc (F.lt b c hup hb)

theorem mem_of_isSome (hb : (up b).isSome) : b ∈ order := by
  obtain ⟨c, hc⟩ := isSome_iff_exists.mp hb
  exact F.mem b c hc

theorem mem_of_anc (h : Anc up a b) (hb : b ∈ order) : a ∈ order := by
  induction h with
  | refl => exact hb
  | up hup _ ih => exact ih (F.mem_of_isSome (F.parent _ _ hup))

theorem antisymm (hab : Anc up a b) (hba : Anc up b a) (hb : b ∈ order) : a = b := by
  have ha := F.mem_of_anc hab hb
  exact (idxOf_inj ha).mp ((F.idxOf_le hab).antisymm (F.idxOf_le hba))

end Forest

end Ancestors

namespace Parents

variable {parents : Parents}

/-- The common ancestor of two blocks is below all their common ancestors. -/
theorem intersect_spec (F : Forest order parents.parent?) {fuel : Nat} {a b : BlockId}
    (ha : (parents.parent? a).isSome) (hb : (parents.parent? b).isSome)
    (hentry : order.idxOf entry = 0)
    (hfuel : order.idxOf a + order.idxOf b < fuel) :
    (parents.parent? (parents.intersect order fuel a b)).isSome ∧
      ∀ x, Anc parents.parent? x (parents.intersect order fuel a b) ↔
        Anc parents.parent? x a ∧ Anc parents.parent? x b := by
  induction fuel generalizing a b with
  | zero => exact absurd hfuel (Nat.not_lt_zero _)
  | succ fuel ih =>
    have hne : ∀ {c d : BlockId}, order.idxOf c < order.idxOf d → d ≠ entry := by
      rintro c d hlt rfl
      rw [hentry] at hlt
      exact absurd hlt (Nat.not_lt_zero _)
    rw [intersect]
    split
    next hab =>
      subst hab
      exact ⟨ha, fun x => (and_self_iff).symm⟩
    next hab =>
      split
      next hlt =>
        obtain ⟨c, hc⟩ := isSome_iff_exists.mp ha
        have hclt := F.lt a c hc (hne hlt)
        obtain ⟨hsome, hanc⟩ := ih (F.parent a c hc) hb (by omega)
        simp only [hc]
        exact ⟨hsome, fun x => (hanc x).trans (anc_and_iff hc (F.not_anc hlt))⟩
      next hlt =>
        have hlt' : order.idxOf a < order.idxOf b := by
          refine (not_lt.mp hlt).lt_of_ne fun heq => hab ?_
          exact (idxOf_inj (F.mem_of_isSome ha)).mp heq
        obtain ⟨c, hc⟩ := isSome_iff_exists.mp hb
        have hclt := F.lt b c hc (hne hlt')
        obtain ⟨hsome, hanc⟩ := ih ha (F.parent b c hc) (by omega)
        simp only [hc]
        refine ⟨hsome, fun x => (hanc x).trans ?_⟩
        rw [and_comm, anc_and_iff hc (F.not_anc hlt'), and_comm]

/-- More fuel does not change the common ancestor. -/
theorem intersect_of_le (F : Forest order parents.parent?) {fuel more : Nat} {a b : BlockId}
    (ha : (parents.parent? a).isSome) (hb : (parents.parent? b).isSome)
    (hentry : order.idxOf entry = 0) (hfuel : order.idxOf a + order.idxOf b < fuel)
    (hmore : fuel ≤ more) :
    parents.intersect order more a b = parents.intersect order fuel a b := by
  obtain ⟨hsome, hanc⟩ := intersect_spec F ha hb hentry hfuel
  obtain ⟨-, hanc'⟩ := intersect_spec F ha hb hentry (hfuel.trans_le hmore)
  exact F.antisymm ((hanc _).mpr ((hanc' _).mp (.refl _))) ((hanc' _).mpr ((hanc _).mp (.refl _)))
    (F.mem_of_isSome hsome)

/-- A common ancestor of some blocks that is below all others. -/
def Nearest (up : BlockId → Option BlockId) (ps : List BlockId) (c : BlockId) : Prop :=
  (up c).isSome ∧ ∀ x, Anc up x c ↔ ∀ p ∈ ps, (up p).isSome → Anc up x p

/-- The common ancestor of what was found so far and one more block, if that has a parent. -/
def meet (parents : Parents) (order : List BlockId) (found : Option BlockId) (p : BlockId) :
    Option BlockId :=
  if (parents.parent? p).isNone then found
  else match found with
    | none => some p
    | some c => some (parents.intersect order (2 * parents.size + 2) p c)

def Found (up : BlockId → Option BlockId) (ps : List BlockId) : Option BlockId → Prop
  | none => ∀ p ∈ ps, up p = none
  | some c => Nearest up ps c

section

variable (F : Forest order parents.parent?) (hentry : order.idxOf entry = 0)
  (hlen : ∀ b, (parents.parent? b).isSome → order.idxOf b < parents.size)

include F hentry hlen

theorem Found.meet {ps : List BlockId}
    {found : Option BlockId} (h : Found parents.parent? ps found) (q : BlockId) :
    Found parents.parent? (ps ++ [q]) (parents.meet order found q) := by
  have hmem : ∀ {P : BlockId → Prop}, (∀ r ∈ ps ++ [q], P r) ↔ (∀ r ∈ ps, P r) ∧ P q := by
    simp [or_imp, forall_and]
  unfold Parents.meet
  cases hq : parents.parent? q with
  | none =>
    cases found with
    | none => exact hmem.mpr ⟨h, hq⟩
    | some c =>
      refine ⟨h.1, fun x => (h.2 x).trans ?_⟩
      rw [hmem]
      exact ⟨fun hx => ⟨hx, fun hs => by rw [hq] at hs; cases hs⟩, fun hx => hx.1⟩
  | some d =>
    have hqs : (parents.parent? q).isSome := by rw [hq]; rfl
    cases found with
    | none =>
      refine ⟨hqs, fun x => ?_⟩
      rw [hmem]
      refine ⟨fun hx => ⟨fun r hr hs => ?_, fun _ => hx⟩, fun hx => hx.2 hqs⟩
      rw [h r hr] at hs
      cases hs
    | some c =>
      obtain ⟨hsome, hanc⟩ := intersect_spec F hqs h.1 hentry
        (show order.idxOf q + order.idxOf c < 2 * parents.size + 2 by
          have := hlen q hqs
          have := hlen c h.1
          omega)
      refine ⟨hsome, fun x => (hanc x).trans ?_⟩
      rw [hmem, h.2]
      exact ⟨fun hx => ⟨hx.2, fun _ => hx.1⟩, fun hx => ⟨hx.2 hqs, hx.1⟩⟩

theorem candidate?_spec {preds : List BlockId} {p : BlockId} (hp : p ∈ preds)
    (hsome : (parents.parent? p).isSome) :
    ∃ c, parents.candidate? order preds = some c ∧ Nearest parents.parent? preds c := by
  have hfold : ∀ (rest first : List BlockId) (found : Option BlockId),
      Found parents.parent? first found →
      Found parents.parent? (first ++ rest) (rest.foldl (parents.meet order) found) := by
    intro rest
    induction rest with
    | nil => simp
    | cons q rest ih =>
      intro first found h
      simpa using ih (first ++ [q]) _ (h.meet F hentry hlen q)
  have hall := hfold preds [] none (forall_mem_nil _)
  change Found _ _ (parents.candidate? order preds) at hall
  cases hc : parents.candidate? order preds with
  | none =>
    rw [hc] at hall
    rw [hall p hp] at hsome
    cases hsome
  | some c =>
    rw [hc] at hall
    exact ⟨c, rfl, hall⟩

end

end Parents

/-! ### One update -/

section Update

variable {b c x y : BlockId}

theorem isSome_update (h : (up y).isSome) : (Function.update up b (some c) y).isSome := by
  rw [update_apply]
  split
  · rfl
  · exact h

theorem isSome_of_update (hy : y ≠ b) (h : (Function.update up b (some c) y).isSome) :
    (up y).isSome := by
  rwa [update_of_ne hy] at h

theorem update_eq_some (h : Function.update up b (some c) y = some x) :
    y = b ∧ x = c ∨ y ≠ b ∧ up y = some x := by
  rw [update_apply] at h
  split at h
  next hy => exact .inl ⟨hy, (Option.some.inj h).symm⟩
  next hy => exact .inr ⟨hy, h⟩

/-- A new parent changes nothing for blocks that are not below. -/
theorem anc_update_of_not (hy : ¬Anc up b y) :
    Anc (Function.update up b (some c)) x y ↔ Anc up x y := by
  constructor
  · intro h
    induction h with
    | refl => exact .refl _
    | @up y z hup _ ih =>
      have hne : y ≠ b := fun heq => hy (heq ▸ .refl _)
      rw [update_of_ne hne] at hup
      exact .up hup (ih fun hz => hy (.up hup hz))
  · intro h
    induction h with
    | refl => exact .refl _
    | @up y z hup _ ih =>
      have hne : y ≠ b := fun heq => hy (heq ▸ .refl _)
      refine .up ?_ (ih fun hz => hy (.up hup hz))
      rw [update_of_ne hne]
      exact hup

/-- Below `b`, what was above `b` gives way to what is above its new parent. -/
theorem Forest.anc_update (F : Forest order up) (hb : b ∈ order) (hne : b ≠ Function.entry)
    (hc : ¬Anc up b c) (hy : Anc up b y) :
    Anc (Function.update up b (some c)) x y ↔ (Anc up x y ∧ Anc up b x) ∨ Anc up x c := by
  induction hy with
  | refl =>
    rw [anc_iff_of_up (update_self b (some c) up), anc_update_of_not hc]
    refine or_congr ⟨?_, fun h => F.antisymm h.1 h.2 hb⟩ Iff.rfl
    rintro rfl
    exact ⟨.refl _, .refl _⟩
  | @up y z hup hz ih =>
    have hyb : y ≠ b := by
      rintro rfl
      exact F.not_anc_parent hne hup hz
    have hup' : Function.update up b (some c) y = some z := by
      rw [update_of_ne hyb]
      exact hup
    rw [anc_iff_of_up hup', anc_iff_of_up hup, ih]
    constructor
    · rintro (rfl | ⟨hx, hbx⟩ | hx)
      · exact .inl ⟨.inl rfl, .up hup hz⟩
      · exact .inl ⟨.inr hx, hbx⟩
      · exact .inr hx
    · rintro (⟨rfl | hx, hbx⟩ | hx)
      · exact .inl rfl
      · exact .inr (.inl ⟨hx, hbx⟩)
      · exact .inr (.inr hx)

theorem Forest.update (F : Forest order up) (hb : b ∈ order) (hne : b ≠ Function.entry)
    (hc : (up c).isSome) (hlt : order.idxOf c < order.idxOf b) :
    Forest order (Function.update up b (some c)) := by
  refine ⟨?_, ?_, ?_, ?_⟩
  · rw [update_of_ne hne.symm]
    exact F.entry
  · intro y d hd
    rcases update_eq_some hd with ⟨rfl, -⟩ | ⟨-, hd⟩
    · exact hb
    · exact F.mem y d hd
  · intro y d hd hye
    rcases update_eq_some hd with ⟨rfl, rfl⟩ | ⟨-, hd⟩
    · exact hlt
    · exact F.lt y d hd hye
  · intro y d hd
    rcases update_eq_some hd with ⟨-, rfl⟩ | ⟨-, hd⟩
    · exact isSome_update hc
    · exact isSome_update (F.parent y d hd)

end Update

/-! ### One round -/

section Ways

variable (preds : BlockId → List BlockId) (order : List BlockId)

/-- A way from `a` to `b` on which everything after `a` comes after it in the order. -/
def Onward (a b : BlockId) : Prop :=
  Relation.ReflTransGen (fun p q => p ∈ preds q ∧ order.idxOf a < order.idxOf q) a b

def Avoids (a b : BlockId) : Prop :=
  a ≠ entry ∧ Relation.ReflTransGen (fun p q => p ∈ preds q ∧ q ≠ a) entry b

variable {preds order} {a b : BlockId}

/-- The ways from parent to child make a way to everything below. -/
theorem Forest.onward (F : Forest order up)
    (hlinked : ∀ b c, up b = some c → Onward preds order c b) (h : Anc up a b) :
    Onward preds order a b := by
  induction h with
  | refl => exact .refl
  | @up b c hup hac ih =>
    refine ih.trans (Relation.ReflTransGen.mono ?_ _ _ (hlinked b c hup))
    exact fun p q hq => ⟨hq.1, (F.idxOf_le hac).trans_lt hq.2⟩

theorem Avoids.onward (h : Avoids preds a b) (hlt : order.idxOf a < order.idxOf b) {c : BlockId}
    (hbc : Onward preds order b c) : Avoids preds a c := by
  refine ⟨h.1, h.2.trans (Relation.ReflTransGen.mono (fun p q hq => ⟨hq.1, ?_⟩) _ _ hbc)⟩
  rintro rfl
  exact Nat.lt_asymm hlt hq.2

end Ways

/-- What holds when the blocks before position `i` have been updated in this round. A parent is
never too high: what is above all predecessors is above it. Where it has just been updated, or lies
past the position reached, it is above the predecessors that come first. Whatever is not above a
block can be avoided on the way to it. -/
structure Sweep (preds : BlockId → List BlockId) (order : List BlockId) (i : Nat)
    (up : BlockId → Option BlockId) : Prop where
  forest : Forest order up
  swept : ∀ b ∈ order, order.idxOf b < i → (up b).isSome
  closed : ∀ b c, (up b).isSome → c ∈ order → order.idxOf c < order.idxOf b → (up c).isSome
  below : ∀ b c, up b = some c → b ≠ entry → ∀ x,
    (∀ p ∈ preds b, (up p).isSome → Anc up x p) → Anc up x c
  forward : ∀ b c, up b = some c → (order.idxOf b < i ∨ i ≤ order.idxOf c) →
    ∀ q ∈ preds b, (up q).isSome → order.idxOf q < order.idxOf b → Anc up c q
  linked : ∀ b c, up b = some c → Onward preds order c b
  avoids : ∀ a b, (up b).isSome → ¬Anc up a b → Avoids preds a b

/-- The order starts at the entry, and every other block comes after a predecessor. -/
structure Searched (preds : BlockId → List BlockId) (order : List BlockId) : Prop where
  nodup : order.Nodup
  entry : order.idxOf entry = 0
  entry_mem : Function.entry ∈ order
  earlier : ∀ b ∈ order, b ≠ Function.entry →
    ∃ q ∈ order, q ∈ preds b ∧ order.idxOf q < order.idxOf b

namespace Sweep

variable {preds : BlockId → List BlockId} {i : Nat} {b c : BlockId}

theorem idxOf_lt_of_ne (hi : order.idxOf b = i) {y : BlockId} (hy : y ∈ order) (hyb : y ≠ b)
    (hlt : order.idxOf y < i + 1) : order.idxOf y < i :=
  (Nat.le_of_lt_succ hlt).lt_of_ne fun heq => hyb ((idxOf_inj hy).mp (heq.trans hi.symm))

section

variable (h : Sweep preds order i up) (hb : b ∈ order) (hne : b ≠ entry)
  (hnear : Parents.Nearest up (preds b) c) (hclt : order.idxOf c < order.idxOf b)
  (hi : order.idxOf b = i)

include h hne hnear

/-- The new parent of a block is above the old one. -/
theorem anc_parent {c₀ : BlockId} (hc₀ : up b = some c₀) : Anc up c c₀ :=
  h.below b c₀ hc₀ hne c ((hnear.2 c).mp (.refl c))

include hb hclt

/-- What is above a block after an update was above it before. -/
theorem anc_of_update {x y : BlockId} (hy : (up y).isSome)
    (hx : Anc (Function.update up b (some c)) x y) : Anc up x y := by
  by_cases hby : Anc up b y
  · rcases (h.forest.anc_update hb hne (h.forest.not_anc hclt) hby).mp hx with ⟨hx, -⟩ | hx
    · exact hx
    · obtain ⟨c₀, hc₀⟩ := isSome_iff_exists.mp (hby.processed h.forest hy)
      exact (hx.trans (h.anc_parent hne hnear hc₀)).trans (.trans (.up hc₀ (.refl _)) hby)
  · exact (anc_update_of_not hby).mp hx

/-- After an update, too, what is not above a block can be avoided. A block that was above the
updated one and is not any more can be avoided on a way to a predecessor, and from there on. -/
theorem avoids_update {a y : BlockId} (hy : (Function.update up b (some c) y).isSome)
    (ha : ¬Anc (Function.update up b (some c)) a y) : Avoids preds a y := by
  have F := h.forest
  by_cases hby : Anc up b y
  · rw [F.anc_update hb hne (F.not_anc hclt) hby, not_or, hnear.2] at ha
    obtain ⟨hay, hap⟩ := ha
    have hab : a ≠ b := by
      rintro rfl
      exact hay ⟨hby, .refl a⟩
    push Not at hap
    obtain ⟨p, hp, hps, hap⟩ := hap
    have hpath := h.avoids a p hps hap
    have hto : Avoids preds a b := ⟨hpath.1, hpath.2.tail ⟨hp, hab.symm⟩⟩
    by_cases hyb : y = b
    · exact hyb ▸ hto
    · rw [update_of_ne hyb] at hy
      by_cases haboy : Anc up a y
      · rcases haboy.total hby with hle | hle
        · have hlt := (F.idxOf_le hle).lt_of_ne fun heq =>
            hab ((idxOf_inj (F.mem_of_anc hle hb)).mp heq)
          exact hto.onward hlt (F.onward h.linked hby)
        · exact absurd ⟨haboy, hle⟩ hay
      · exact h.avoids a y hy haboy
  · have hyb : y ≠ b := fun heq => hby (heq ▸ .refl _)
    rw [update_of_ne hyb] at hy
    rw [anc_update_of_not hby] at ha
    exact h.avoids a y hy ha

include hi

/-- After an update, what is above all predecessors of a block is still above its parent. -/
theorem below_update (hs : Searched preds order) {x y d : BlockId}
    (hd : Function.update up b (some c) y = some d) (hye : y ≠ entry)
    (hx : ∀ p ∈ preds y, (Function.update up b (some c) p).isSome →
      Anc (Function.update up b (some c)) x p) : Anc (Function.update up b (some c)) x d := by
  have F := h.forest
  have hc := F.not_anc hclt
  have hxp : ∀ p ∈ preds y, (up p).isSome → Anc up x p := fun p hp hps =>
    h.anc_of_update hb hne hnear hclt hps (hx p hp (isSome_update hps))
  rcases update_eq_some hd with ⟨rfl, rfl⟩ | ⟨-, hd'⟩
  · rwa [anc_update_of_not hc, hnear.2]
  · have hxd := h.below y d hd' hye x hxp
    by_cases hbd : Anc up b d
    · -- a predecessor of `y` that comes first is below `d`, hence below `b`
      have hys : (up y).isSome := by rw [hd']; rfl
      obtain ⟨q, hq, hqp, hqlt⟩ := hs.earlier y (F.mem y d hd') hye
      have hqs := h.closed y q hys hq hqlt
      have hdq := h.forward y d hd' (.inr (hi ▸ F.idxOf_le hbd)) q hqp hqs hqlt
      have hxq := hx q hqp (isSome_update hqs)
      rw [F.anc_update hb hne hc (hbd.trans hdq)] at hxq
      rw [F.anc_update hb hne hc hbd]
      rcases hxq with ⟨-, hbx⟩ | hxc
      · exact .inl ⟨hxd, hbx⟩
      · exact .inr hxc
    · exact (anc_update_of_not hbd).mpr hxd

theorem forward_update {y d q : BlockId} (hd : Function.update up b (some c) y = some d)
    (hpos : order.idxOf y < i + 1 ∨ i + 1 ≤ order.idxOf d) (hq : q ∈ preds y)
    (hqs : (Function.update up b (some c) q).isSome) (hqlt : order.idxOf q < order.idxOf y) :
    Anc (Function.update up b (some c)) d q := by
  have F := h.forest
  rcases update_eq_some hd with ⟨rfl, rfl⟩ | ⟨hyb, hd'⟩
  · have hqb : q ≠ y := by
      rintro rfl
      exact lt_irrefl _ hqlt
    rw [anc_update_of_not (F.not_anc hqlt)]
    exact (hnear.2 d).mp (.refl d) q hq (isSome_of_update hqb hqs)
  · have hys : (up y).isSome := by rw [hd']; rfl
    have hqs' : (up q).isSome := by
      by_cases hqb : q = b
      · subst hqb
        exact h.closed y q hys hb hqlt
      · exact isSome_of_update hqb hqs
    rcases hpos with hlt | hle
    · have hlt' := idxOf_lt_of_ne hi (F.mem y d hd') hyb hlt
      have hqb : ¬Anc up b q := F.not_anc (by omega)
      exact (anc_update_of_not hqb).mpr (h.forward y d hd' (.inl hlt') q hq hqs' hqlt)
    · have hdq := h.forward y d hd' (.inr (Nat.le_of_succ_le hle)) q hq hqs' hqlt
      by_cases hbq : Anc up b q
      · rw [F.anc_update hb hne (F.not_anc hclt) hbq]
        refine .inl ⟨hdq, ?_⟩
        rcases hbq.total hdq with hbd | hdb
        · exact hbd
        · exact absurd (F.idxOf_le hdb) (by omega)
      · exact (anc_update_of_not hbq).mpr hdq

omit hclt

/-- The update of the block at the position reached. -/
theorem update (hs : Searched preds order) :
    Sweep preds order (i + 1) (Function.update up b (some c)) := by
  have F := h.forest
  -- a predecessor that comes first has a parent, so the new parent comes before the block
  obtain ⟨q₀, hq₀, hq₀p, hq₀lt⟩ := hs.earlier b hb hne
  have hq₀s := h.swept q₀ hq₀ (hi ▸ hq₀lt)
  have hcq := (hnear.2 c).mp (.refl c) q₀ hq₀p hq₀s
  have hclt : order.idxOf c < order.idxOf b := (F.idxOf_le hcq).trans_lt hq₀lt
  refine ⟨F.update hb hne hnear.1 hclt, ?_, ?_,
    fun y d hd hye x => h.below_update hb hne hnear hclt hi hs hd hye,
    fun y d hd hpos q => h.forward_update hb hne hnear hclt hi hd hpos, ?_,
    fun a y => h.avoids_update hb hne hnear hclt⟩
  · intro y hy hlt
    by_cases hyb : y = b
    · rw [hyb, update_self]
      rfl
    · exact isSome_update (h.swept y hy (idxOf_lt_of_ne hi hy hyb hlt))
  · intro y z hy hz hlt
    by_cases hyb : y = b
    · rw [hyb, hi] at hlt
      exact isSome_update (h.swept z hz hlt)
    · exact isSome_update (h.closed y z (isSome_of_update hyb hy) hz hlt)
  · intro y d hd
    rcases update_eq_some hd with ⟨rfl, rfl⟩ | ⟨-, hd⟩
    · exact (F.onward h.linked hcq).tail ⟨hq₀p, hclt⟩
    · exact h.linked y d hd

end

end Sweep

/-! ### Rounds until nothing changes -/

/-- Every parent has stayed or moved towards the entry. -/
def Lower (order : List BlockId) (up' up : BlockId → Option BlockId) : Prop :=
  ∀ b c, up b = some c → ∃ c', up' b = some c' ∧ order.idxOf c' ≤ order.idxOf c

namespace Lower

variable {up' up'' : BlockId → Option BlockId}

theorem refl : Lower order up up := fun _ c hc => ⟨c, hc, le_rfl⟩

theorem trans (h : Lower order up'' up') (h' : Lower order up' up) : Lower order up'' up := by
  intro b c hc
  obtain ⟨c', hc', hle⟩ := h' b c hc
  obtain ⟨c'', hc'', hle'⟩ := h b c' hc'
  exact ⟨c'', hc'', hle'.trans hle⟩

theorem antisymm (h : Lower order up' up) (h' : Lower order up up') (F : Forest order up) :
    up' = up := by
  funext b
  cases hb : up b with
  | none =>
    cases hb' : up' b with
    | none => rfl
    | some c' =>
      obtain ⟨c, hc, -⟩ := h' b c' hb'
      rw [hb] at hc
      cases hc
  | some c =>
    obtain ⟨c', hc', hle⟩ := h b c hb
    obtain ⟨d, hd, hle'⟩ := h' b c' hc'
    rw [hb] at hd
    cases hd
    have hmem := F.mem_of_isSome (F.parent b c hb)
    rw [hc', (idxOf_inj hmem).mp (hle'.antisymm hle)]

end Lower

/-- The parent of each block is the closest common ancestor of its predecessors. -/
structure Immediate (preds : BlockId → List BlockId) (order : List BlockId)
    (up : BlockId → Option BlockId) : Prop where
  forest : Forest order up
  all : ∀ b ∈ order, (up b).isSome
  nearest : ∀ b ∈ order, b ≠ entry → ∃ c, up b = some c ∧ Parents.Nearest up (preds b) c
  avoids : ∀ a b, (up b).isSome → ¬Anc up a b → Avoids preds a b

theorem Immediate.anc_pred {preds : BlockId → List BlockId} (h : Immediate preds order up)
    {b c q : BlockId} (hne : b ≠ entry) (hc : up b = some c) (hq : q ∈ preds b)
    (hqo : q ∈ order) : Anc up c q := by
  obtain ⟨c', hc', hnear⟩ := h.nearest b (h.forest.mem b c hc) hne
  obtain rfl := some.inj (hc.symm.trans hc')
  exact (hnear.2 c).mp (.refl c) q hq (h.all q hqo)

theorem Sweep.restart {preds : BlockId → List BlockId} (h : Sweep preds order order.length up) :
    Sweep preds order 1 up :=
  { h with
    swept := fun b hb _ => h.swept b hb (idxOf_lt_length_of_mem hb)
    forward := fun b c hc _ =>
      h.forward b c hc (.inl (idxOf_lt_length_of_mem (h.forest.mem b c hc))) }

def height (order : List BlockId) (up : BlockId → Option BlockId) : Nat :=
  order.foldr (fun b total => ((up b).map order.idxOf).getD 0 + total) 0

theorem height_eq_sum :
    height order up = (order.map fun b => ((up b).map order.idxOf).getD 0).sum := by
  rw [height, sum_eq_foldr, foldr_map]

theorem Lower.height_lt {up' : BlockId → Option BlockId} (h : Lower order up' up)
    (F : Forest order up) (F' : Forest order up') (hall : ∀ b ∈ order, (up b).isSome)
    (hne : up' ≠ up) : height order up' < height order up := by
  have hle : ∀ b ∈ order, ((up' b).map order.idxOf).getD 0 ≤ ((up b).map order.idxOf).getD 0 := by
    intro b hb
    obtain ⟨c, hc⟩ := isSome_iff_exists.mp (hall b hb)
    obtain ⟨c', hc', hle⟩ := h b c hc
    simpa [hc, hc'] using hle
  rw [height_eq_sum, height_eq_sum]
  refine sum_lt_sum _ _ hle ?_
  by_contra hsame
  push Not at hsame
  refine hne (h.antisymm (fun b c' hc' => ?_) F)
  have hb := F'.mem b c' hc'
  obtain ⟨c, hc⟩ := isSome_iff_exists.mp (hall b hb)
  have := hsame b hb
  rw [hc, hc'] at this
  exact ⟨c, hc, this⟩

theorem height_le (F : Forest order up) : height order up ≤ order.length * order.length := by
  have hle := sum_le_card_nsmul (order.map fun b => ((up b).map order.idxOf).getD 0)
    order.length (forall_mem_map.mpr fun b _ => by
      cases hb : up b with
      | none => exact Nat.zero_le _
      | some c => exact (idxOf_lt_length_of_mem (F.mem_of_isSome (F.parent b c hb))).le)
  rwa [length_map, ← height_eq_sum] at hle

namespace Parents

variable {f : Function} {parents : Parents} {b c : BlockId}

theorem parent?_setIfInBounds (hb : b.index < parents.size) :
    parent? (parents.setIfInBounds b.index (some c)) =
      Function.update parents.parent? b (some c) := by
  funext x
  obtain ⟨i⟩ := x
  obtain ⟨j⟩ := b
  simp only [parent?, update_apply]
  by_cases hij : j = i
  · subst hij
    simp [hb]
  · simp [hij, Ne.symm hij]

theorem size_update (f : Function) (order : List BlockId) (parents : Parents) (b : BlockId) :
    Array.size (update f order parents b) = parents.size := by
  unfold update
  split
  · exact Array.size_setIfInBounds
  · rfl

theorem size_round (f : Function) (order : List BlockId) (parents : Parents) :
    Array.size (round f order parents) = parents.size := by
  rw [round]
  induction order.drop 1 generalizing parents with
  | nil => rfl
  | cons b bs ih => rw [foldl_cons, ih, size_update]

theorem eq_of_parent? {p q : Parents} (hsize : p.size = q.size) (h : p.parent? = q.parent?) :
    p = q := by
  refine Array.ext hsize fun i hi hi' => ?_
  have := congrFun h ⟨i⟩
  simpa [parent?, hi, hi'] using this

theorem parent?_initial (hentry : 0 < f.blocks.size) (b : BlockId) :
    (initial f).parent? b = if b = entry then some entry else none := by
  obtain ⟨i⟩ := b
  simp only [initial, parent?, Function.blockCount, Array.getD_eq_getD_getElem?,
    Array.getElem?_setIfInBounds, entry, BlockId.mk.injEq, Array.getElem?_replicate]
  by_cases hi : i = 0
  · subst hi
    simp [hentry]
  · rw [if_neg (Ne.symm hi)]
    split <;> rfl

variable (hs : Searched f.predecessors order)

include hs

theorem sweep_initial (hentry : 0 < f.blocks.size) :
    Sweep f.predecessors order 1 (initial f).parent? := by
  have hup : ∀ b c, (initial f).parent? b = some c → b = entry ∧ c = entry := by
    intro b c hc
    rw [parent?_initial hentry] at hc
    obtain ⟨hb, hc⟩ := ite_none_right_eq_some.mp hc
    exact ⟨hb, (some.inj hc).symm⟩
  have hself : (initial f).parent? entry = some entry := by
    rw [parent?_initial hentry, if_pos rfl]
  have hsome : ∀ b, ((initial f).parent? b).isSome → b = entry := by
    intro b hb
    obtain ⟨c, hc⟩ := isSome_iff_exists.mp hb
    exact (hup b c hc).1
  refine ⟨⟨hself, ?_, ?_, ?_⟩, ?_, ?_, ?_, ?_, ?_, ?_⟩
  · intro b c hc
    rw [(hup b c hc).1]
    exact hs.entry_mem
  · intro b c hc hb
    exact absurd (hup b c hc).1 hb
  · intro b c hc
    rw [(hup b c hc).2, hself]
    rfl
  · intro b hb hlt
    have hb0 : order.idxOf b = order.idxOf entry := by
      rw [hs.entry]
      omega
    rw [(idxOf_inj hb).mp hb0, hself]
    rfl
  · intro b c hb _ hlt
    rw [hsome b hb, hs.entry] at hlt
    exact absurd hlt (Nat.not_lt_zero _)
  · intro b c hc hb
    exact absurd (hup b c hc).1 hb
  · intro b c hc _ q _ _ hlt
    rw [(hup b c hc).1, hs.entry] at hlt
    exact absurd hlt (Nat.not_lt_zero _)
  · intro b c hc
    rw [(hup b c hc).1, (hup b c hc).2]
    exact .refl
  · intro a b hb ha
    rw [hsome b hb] at ha ⊢
    exact ⟨fun heq => ha (heq ▸ .refl _), .refl⟩

variable (hsize : ∀ x ∈ order, x.index < parents.size) (hlen : order.length ≤ parents.size)

include hsize hlen

/-- An update puts the closest common ancestor of the predecessors into the table. -/
theorem update_eq {i : Nat} (h : Sweep f.predecessors order i parents.parent?)
    (hb : b ∈ order) (hi : order.idxOf b = i) (hne : b ≠ entry) :
    ∃ c, Nearest parents.parent? (f.predecessors b) c ∧
      parent? (update f order parents b) = Function.update parents.parent? b (some c) := by
  obtain ⟨q, hq, hqp, hqlt⟩ := hs.earlier b hb hne
  obtain ⟨c, hc, hnear⟩ := candidate?_spec h.forest hs.entry
    (fun x hx => (idxOf_lt_length_of_mem (h.forest.mem_of_isSome hx)).trans_le hlen)
    hqp (h.swept q hq (hi ▸ hqlt))
  refine ⟨c, hnear, ?_⟩
  rw [update, hc]
  exact parent?_setIfInBounds (hsize b hb)

/-- The blocks that are left in a round. If no parent has moved at its end, each of them had the
right parent before. -/
theorem sweep_foldl {done todo : List BlockId} (horder : order = done ++ todo)
    (hdone : entry ∈ done) (h : Sweep f.predecessors order done.length parents.parent?) :
    Sweep f.predecessors order order.length (parent? (todo.foldl (update f order) parents)) ∧
      Lower order (parent? (todo.foldl (update f order) parents)) parents.parent? ∧
      (Lower order parents.parent? (parent? (todo.foldl (update f order) parents)) →
        ∀ b ∈ todo, ∃ c, parents.parent? b = some c ∧
          Nearest parents.parent? (f.predecessors b) c) := by
  induction todo generalizing done parents with
  | nil =>
    rw [append_nil] at horder
    exact ⟨horder ▸ h, .refl, fun _ => forall_mem_nil _⟩
  | cons b todo ih =>
    have hb : b ∈ order := by simp [horder]
    have hnodup := hs.nodup
    rw [horder] at hnodup
    have hbdone : b ∉ done := fun hmem =>
      (nodup_append.mp hnodup).2.2 b hmem b (.head _) rfl
    have hi : order.idxOf b = done.length := by
      rw [horder, idxOf_append_of_notMem hbdone, idxOf_cons_self, Nat.add_zero]
    have hne : b ≠ entry := by
      rintro rfl
      exact hbdone hdone
    obtain ⟨c, hnear, hparent⟩ := update_eq hs hsize hlen h hb hi hne
    have hsweep := h.update hb hne hnear hi hs
    rw [← hparent] at hsweep
    have hlower : Lower order (parent? (update f order parents b)) parents.parent? := by
      intro y d hd
      rw [hparent]
      by_cases hy : y = b
      · subst hy
        exact ⟨c, update_self _ _ _, h.forest.idxOf_le (h.anc_parent hne hnear hd)⟩
      · exact ⟨d, by rw [update_of_ne hy]; exact hd, le_rfl⟩
    have hnext : Sweep f.predecessors order (done ++ [b]).length
        (parent? (update f order parents b)) := by simpa using hsweep
    have hsplit : order = (done ++ [b]) ++ todo := by simp [horder]
    have hsz := size_update f order parents b
    obtain ⟨hend, hlower', hfixed⟩ :=
      ih (hsz ▸ hsize) (hsz ▸ hlen) hsplit (mem_append_left _ hdone) hnext
    refine ⟨hend, hlower'.trans hlower, fun hback => ?_⟩
    have hsame : parent? (update f order parents b) = parents.parent? :=
      hlower.antisymm (hback.trans hlower') h.forest
    intro y hy
    rcases mem_cons.mp hy with rfl | hy
    · refine ⟨c, ?_, hnear⟩
      rw [← hsame, hparent, update_self]
    · have := hfixed (hsame ▸ hback) y hy
      rwa [hsame] at this

/-- A whole round. -/
theorem sweep_round (h : Sweep f.predecessors order 1 parents.parent?) :
    Sweep f.predecessors order order.length (parent? (round f order parents)) ∧
      Lower order (parent? (round f order parents)) parents.parent? ∧
      (Lower order parents.parent? (parent? (round f order parents)) →
        ∀ b ∈ order, b ≠ entry → ∃ c, parents.parent? b = some c ∧
          Nearest parents.parent? (f.predecessors b) c) := by
  cases horder : order with
  | nil =>
    have := hs.entry_mem
    rw [horder] at this
    cases this
  | cons e rest =>
    have he : e = entry := by
      have hidx := hs.entry
      rw [horder] at hidx
      by_contra hne
      rw [idxOf_cons_ne _ hne] at hidx
      cases hidx
    subst he
    rw [← horder]
    have hdrop : order.drop 1 = rest := by rw [horder]; rfl
    obtain ⟨hend, hlower, hfixed⟩ := sweep_foldl hs hsize hlen
      (show order = [entry] ++ rest from horder) (.head _) h
    rw [round, hdrop]
    refine ⟨hend, hlower, fun hback b hb hne => hfixed hback b ?_⟩
    rw [horder] at hb
    exact (mem_cons.mp hb).resolve_left hne

/-- If the heights leave enough rounds, the iteration ends because nothing changes. -/
theorem stabilize_spec {rounds : Nat}
    (h : Sweep f.predecessors order order.length parents.parent?)
    (hrounds : height order parents.parent? < rounds) :
    Immediate f.predecessors order (parent? (stabilize f order rounds parents)) ∧
      round f order (stabilize f order rounds parents) = stabilize f order rounds parents := by
  induction rounds generalizing parents with
  | zero => exact absurd hrounds (Nat.not_lt_zero _)
  | succ rounds ih =>
    have hall : ∀ b ∈ order, (parents.parent? b).isSome := fun b hb =>
      h.swept b hb (idxOf_lt_length_of_mem hb)
    obtain ⟨hend, hlower, hfixed⟩ := sweep_round hs hsize hlen h.restart
    have hsz := size_round f order parents
    rw [stabilize]
    split
    next heq =>
      exact ⟨⟨h.forest, hall, hfixed (by rw [heq]; exact .refl), h.avoids⟩, heq⟩
    next hne =>
      have hlt := hlower.height_lt h.forest hend.forest hall fun heq =>
        hne (eq_of_parent? hsz heq)
      exact ih (hsz ▸ hsize) (hsz ▸ hlen) hend (by omega)

end Parents

namespace DominatorTree

variable {f : Function}

theorem immediate (hs : Searched f.predecessors f.reversePostorder) (hentry : 0 < f.blocks.size)
    (hsize : ∀ x ∈ f.reversePostorder, x.index < f.blocks.size)
    (hlen : f.reversePostorder.length ≤ f.blocks.size) :
    Immediate f.predecessors (compute f).order (compute f).parents.parent? ∧
      round f (compute f).order (compute f).parents = (compute f).parents := by
  have hisize : (initial f).size = f.blocks.size := by
    simp [initial, Function.blockCount]
  obtain ⟨hend, -, hfixed⟩ := sweep_round hs (hisize ▸ hsize) (hisize ▸ hlen)
    (sweep_initial hs hentry)
  have hcompute : (compute f).parents = stabilize f f.reversePostorder
    (maxRounds f) (initial f) := rfl
  rw [hcompute, maxRounds, stabilize]
  split
  next heq =>
    rw [heq] at hend
    exact ⟨⟨hend.forest, fun b hb => hend.swept b hb (idxOf_lt_length_of_mem hb),
      hfixed (by rw [heq]; exact .refl), hend.avoids⟩, heq⟩
  next =>
    have hsz := (size_round f f.reversePostorder _).trans hisize
    refine stabilize_spec hs (hsz ▸ hsize) (hsz ▸ hlen) hend ?_
    refine (height_le hend.forest).trans_lt ?_
    refine (Nat.mul_le_mul hlen hlen).trans_lt ?_
    exact Nat.mul_lt_mul_of_lt_of_le (Nat.lt_succ_self _) (Nat.le_succ _) (Nat.succ_pos _)

end DominatorTree

/-! ### The tree and its frontiers -/

theorem Function.Ordered.searched {f : Function} (h : f.Ordered order) (hpreds : f.ExactPreds)
    (hsize : ∀ x ∈ order, x.index < f.blocks.size) :
    Searched f.predecessors order := by
  obtain ⟨rest, hrest⟩ := h.head
  refine ⟨h.nodup, ?_, ?_, ?_⟩
  · rw [hrest, idxOf_cons_self]
  · rw [hrest]
    exact (.head _)
  · intro b hb hne
    obtain ⟨c, hc, hbc, hlt⟩ := h.earlier b hb hne
    exact ⟨c, hc, (hpreds.mem b c (hsize b hb)).mpr hbc, hlt⟩

namespace Parents

variable {parents : Parents} {stop q : BlockId}

/-- With enough fuel, the way up from a block leads through what is above it and below the end. -/
theorem path_spec (F : Forest order parents.parent?) (hq : q ∈ order)
    (hstop : Anc parents.parent? stop q) :
    ∃ way, (∀ fuel, order.idxOf q < fuel → parents.path stop fuel q = way) ∧
      ∀ x, x ∈ way ↔ Anc parents.parent? x q ∧ Anc parents.parent? stop x ∧ x ≠ stop := by
  induction hstop with
  | refl =>
    refine ⟨[], fun fuel _ => ?_, fun x => ⟨fun hx => absurd hx not_mem_nil, ?_⟩⟩
    · cases fuel <;> simp [path]
    · rintro ⟨hxq, hsx, hne⟩
      exact absurd (F.antisymm hxq hsx hq) hne
  | @up q z hup hsz ih =>
    have hz := F.mem_of_anc (.up hup (.refl z)) hq
    obtain ⟨way, hway, hmem⟩ := ih hz
    by_cases hqe : q = entry
    · -- the entry is its own parent
      obtain rfl : z = q := by rw [hqe, F.entry] at hup; rw [hqe, some.inj hup]
      exact ⟨way, hway, hmem⟩
    have hlt := F.lt q z hup hqe
    have hzq : z ≠ q := fun heq => absurd hlt (heq ▸ lt_irrefl _)
    have hqs : q ≠ stop := fun heq => absurd (F.idxOf_le hsz) (heq ▸ hlt.not_ge)
    refine ⟨q :: way, fun fuel hfuel => ?_, fun x => ?_⟩
    · obtain ⟨fuel, rfl⟩ := Nat.exists_eq_succ_of_ne_zero (Nat.ne_zero_of_lt hfuel)
      rw [path, if_neg hqs, hup]
      simp only [if_neg hzq, hway fuel (by omega)]
    · rw [mem_cons, hmem, anc_iff_of_up hup]
      constructor
      · rintro (rfl | ⟨hxz, hx⟩)
        · exact ⟨.inl rfl, .up hup hsz, hqs⟩
        · exact ⟨.inr hxz, hx⟩
      · rintro ⟨rfl | hxz, hx⟩
        · exact .inl rfl
        · exact .inr ⟨hxz, hx⟩

theorem size_stabilize {f : Function} (rounds : Nat) :
    Array.size (stabilize f order rounds parents) = parents.size := by
  induction rounds generalizing parents with
  | zero => rfl
  | succ rounds ih =>
    rw [stabilize]
    split
    · rfl
    · rw [ih, size_round]

end Parents

namespace DominatorTree

variable {f : Function} {b x : BlockId}

theorem mem_frontier : b ∈ (compute f).frontier x ↔ b ∈ (compute f).order ∧
    x ∈ frontierMembers f (compute f).order (compute f).parents b := by
  simp only [frontier, List.mem_map, Prod.exists, exists_and_right, exists_eq_right]
  simp only [compute, mem_filter, List.mem_map, Prod.mk.injEq, contains_iff_mem]
  constructor
  · rintro ⟨members, ⟨⟨c, hc, rfl, rfl⟩, -⟩, hx⟩
    exact ⟨hc, hx⟩
  · rintro ⟨hb, hx⟩
    refine ⟨_, ⟨⟨b, hb, rfl, rfl⟩, ?_⟩, hx⟩
    rw [Bool.not_eq_true', isEmpty_eq_false_iff]
    exact ne_nil_of_mem hx

theorem mem_children {t : DominatorTree} {rest : List BlockId} {c : BlockId}
    (horder : t.order = entry :: rest) (hnodup : t.order.Nodup) :
    c ∈ t.children b ↔ c ∈ t.order ∧ c ≠ entry ∧ t.parents.parent? c = some b := by
  have hne : c ∈ rest ↔ c ∈ t.order ∧ c ≠ entry := by
    rw [horder] at hnodup ⊢
    constructor
    · intro hc
      refine ⟨.tail _ hc, ?_⟩
      rintro rfl
      exact (nodup_cons.mp hnodup).1 hc
    · rintro ⟨hc, hne⟩
      exact (mem_cons.mp hc).resolve_left hne
  rw [children, mem_filter, show t.order.drop 1 = rest by rw [horder]; rfl, hne, and_assoc]
  refine and_congr_right fun _ => and_congr_right fun hce => ?_
  rw [idom?, if_neg hce, beq_iff_eq]

theorem size_parents : Array.size (compute f).parents = f.blocks.size := by
  rw [compute, size_stabilize]
  simp [initial, Function.blockCount]

theorem idxOf_lt_size (ho : f.Ordered (compute f).order) (hb : b ∈ (compute f).order) :
    (compute f).order.idxOf b < (compute f).parents.size :=
  (idxOf_lt_length_of_mem hb).trans_le (size_parents ▸ ho.length)

structure Sound (f : Function) (t : DominatorTree) : Prop where
  ordered : f.Ordered t.order
  immediate : Immediate f.predecessors t.order t.parents.parent?
  stable : round f t.order t.parents = t.parents
  /-- A block is in the frontier of what lies between its parent and a predecessor. -/
  frontier : ∀ {b c x : BlockId}, b ∈ t.order → b ≠ entry →
    t.parents.parent? b = some c → (b ∈ t.frontier x ↔ ∃ q ∈ f.predecessors b, q ∈ t.order ∧
      Anc t.parents.parent? x q ∧ Anc t.parents.parent? c x ∧ x ≠ c)
  /-- Blocks in a frontier are those where ways meet. -/
  joins : ∀ {b x : BlockId}, b ∈ t.frontier x → b ∈ t.order ∧ 2 ≤ (f.predecessors b).length

theorem sound (h : f.WellFormed) (hpreds : f.ExactPreds) (hentry : 0 < f.blocks.size)
    (hexist : ∀ b c, c ∈ f.program.successors b → c.index < f.blocks.size) :
    Sound f (compute f) := by
  have ho : f.Ordered (compute f).order := h.ordered hentry hexist
  have hsize : ∀ x ∈ f.reversePostorder, x.index < f.blocks.size := by
    intro x hx
    cases (ho.mem x).mp hx with
    | entry => exact hentry
    | step _ hc => exact hexist _ _ hc
  obtain ⟨hi, hstable⟩ := DominatorTree.immediate (ho.searched hpreds hsize) hentry hsize ho.length
  have F := hi.forest
  refine ⟨ho, hi, hstable, ?_, ?_⟩
  · intro b c x hb hne hc
    obtain ⟨c', hc', hnear⟩ := hi.nearest b hb hne
    rw [hc] at hc'
    cases hc'
    have hpath : ∀ q ∈ f.predecessors b, q ∈ (compute f).order →
        (x ∈ (compute f).parents.path c (Array.size (compute f).parents + 1) q ↔
          Anc (compute f).parents.parent? x q ∧ Anc (compute f).parents.parent? c x ∧ x ≠ c) := by
      intro q hq hqo
      obtain ⟨way, hway, hmem⟩ := path_spec F hqo (hi.anc_pred hne hc hq hqo)
      rw [hway _ (Nat.lt_succ_of_lt (idxOf_lt_size ho hqo))]
      exact hmem x
    rw [mem_frontier, frontierMembers, hc]
    dsimp only
    split
    next hlt =>
      -- a single predecessor is the parent itself, with nothing strictly between
      refine ⟨fun hx => absurd hx.2 not_mem_nil, fun ⟨q, hq, hqo, hxq, hcx, hxc⟩ => ?_⟩
      have hsingle : ∀ p ∈ f.predecessors b, p ∈ (compute f).order → p = q := by
        have hmem : ∀ {p}, p ∈ f.predecessors b → p ∈ (compute f).order →
            p ∈ (f.predecessors b).filter (compute f).order.contains := fun hp hpo =>
          mem_filter.mpr ⟨hp, contains_iff_mem.mpr hpo⟩
        intro p hp hpo
        have hq' := hmem hq hqo
        have hp' := hmem hp hpo
        generalize (f.predecessors b).filter (compute f).order.contains = ps at hlt hq' hp'
        match ps, hlt, hq', hp' with
        | [y], _, hq', hp' => rw [mem_singleton.mp hp', mem_singleton.mp hq']
      have hqc : Anc (compute f).parents.parent? q c := by
        rw [hnear.2]
        intro p hp hps
        rw [hsingle p hp (F.mem_of_isSome hps)]
        exact .refl q
      exact absurd (F.antisymm (hxq.trans hqc) hcx (F.mem_of_anc hcx (F.mem_of_anc hxq hqo))) hxc
    next =>
      rw [mem_flatMap]
      constructor
      · rintro ⟨-, q, hq, hx⟩
        obtain ⟨hq, hqo⟩ := mem_filter.mp hq
        rw [contains_iff_mem] at hqo
        exact ⟨q, hq, hqo, (hpath q hq hqo).mp hx⟩
      · rintro ⟨q, hq, hqo, hx⟩
        exact ⟨hb, q, mem_filter.mpr ⟨hq, contains_iff_mem.mpr hqo⟩, (hpath q hq hqo).mpr hx⟩
  · intro b x hx
    rw [mem_frontier, frontierMembers] at hx
    refine ⟨hx.1, ?_⟩
    have hmem := hx.2
    split at hmem
    · split at hmem
      · cases hmem
      next hlen => exact (not_lt.mp hlen).trans (length_filter_le _ _)
    · cases hmem

end DominatorTree

end Dynarec.IR
