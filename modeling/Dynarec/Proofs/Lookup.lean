import Mathlib.Data.List.Nodup

/-!
# Look-up in lists of entries

Small tables are lists of keys and values, in which the first entry of a key counts.
-/

namespace Dynarec

open List

variable {α β : Type*} {l : List (α × β)} {a b : α} {v : β}

section

variable [BEq α] [LawfulBEq α]

theorem mem_of_lookup (h : l.lookup a = some v) : (a, v) ∈ l := by
  obtain ⟨first, rest, rfl, -⟩ := lookup_eq_some_iff.mp h
  simp

theorem not_mem_of_lookup (h : l.lookup a = none) : a ∉ l.map Prod.fst := by
  intro hmem
  obtain ⟨e, he, rfl⟩ := mem_map.mp hmem
  simpa using lookup_eq_none_iff.mp h e he

theorem lookup_of_mem (hnodup : (l.map Prod.fst).Nodup) (hmem : (a, v) ∈ l) :
    l.lookup a = some v := by
  cases hfind : l.lookup a with
  | none => exact absurd (mem_map_of_mem hmem) (not_mem_of_lookup hfind)
  | some p =>
    have heq := inj_on_of_nodup_map hnodup (mem_of_lookup hfind) hmem rfl
    rw [(Prod.mk.inj heq).2]

end

variable [DecidableEq α]

theorem lookup_cons_eq_ite (e : α × β) (l : List (α × β)) (b : α) :
    (e :: l).lookup b = if b = e.1 then some e.2 else l.lookup b := by
  rw [lookup_cons]
  by_cases h : b = e.1
  · simp [h]
  · rw [beq_false_of_ne h, if_neg h]

/-- An entry takes the place of all others of its key. -/
theorem lookup_replace (l : List (α × β)) (a b : α) (v : β) :
    ((a, v) :: l.filter (·.1 != a)).lookup b = if b = a then some v else l.lookup b := by
  rw [lookup_cons_eq_ite]
  split
  · rfl
  next hb =>
    induction l with
    | nil => rfl
    | cons e l ih =>
      rw [filter_cons, lookup_cons_eq_ite e l]
      split
      · rw [lookup_cons_eq_ite, ih]
      next he =>
        obtain rfl : e.1 = a := by simpa using he
        rw [if_neg hb, ih]

end Dynarec
