import Dynarec.Host.Machine
import Dynarec.Proofs.Lookup
import Dynarec.Proofs.Host.RegisterFile

/-!
# Runs of emitted code

A run of emitted code goes from status to status: it stands before an instruction, is on its way to
a label, or has left. Within a block it only goes forward, so what it passes between two statuses
lies between their positions, in order.
-/

namespace Dynarec.Host

theorem Stack.read_write (s : Stack) (address value other : UInt64) :
    (s.write address value).read other = if other = address then value else s.read other := by
  rw [read, write, lookup_replace]
  split <;> rfl

namespace Cpu

variable (c : Cpu) (r q : Gp) (v : UInt64)

@[simp] theorem get_set_self : (c.set r v).get r = v := GpMap.get_set_self _ _ _

theorem get_set_ne {r q : Gp} (h : q ≠ r) : (c.set r v).get q = c.get q := GpMap.get_set_ne _ h _

@[simp] theorem stack_set : (c.set r v).stack = c.stack := rfl

theorem get_congr {c c' : Cpu} (h : c'.regs = c.regs) (q : Gp) : c'.get q = c.get q := by
  rw [get, h, get]

end Cpu

namespace Exec

variable {ω : Type}

inductive Status (ω : Type) where
  /-- Before the instruction at a position. -/
  | here (position : Nat) (c : Cpu) (world : ω)
  /-- On the way from a branch to its label. -/
  | bound (origin : Nat) (target : Label) (c : Cpu) (world : ω)
  /-- Control has left the code. -/
  | gone (origin : Nat) (how : Departure) (c : Cpu) (world : ω)

/-- The first position that a run in this status has not passed. -/
def Status.edge : Status ω → Nat
  | here position _ _ => position
  | bound origin _ _ _ => origin + 1
  | gone origin _ _ _ => origin + 1

inductive Reaches (host : Surroundings ω) (code : Assembler) : Status ω → Status ω → Prop
  | refl (p : Status ω) : Reaches host code p p
  | next {i : Nat} {item : Item} {c c' : Cpu} {w w' : ω} {q : Status ω}
      (hi : code.items[i]? = some item) (hs : step host c w item.instr = .next c' w')
      (hq : Reaches host code (.here (i + 1) c' w') q) : Reaches host code (.here i c w) q
  | branch {i : Nat} {item : Item} {target : Label} {c c' : Cpu} {w w' : ω} {q : Status ω}
      (hi : code.items[i]? = some item) (hs : step host c w item.instr = .jump target c' w')
      (hq : Reaches host code (.bound i target c' w') q) : Reaches host code (.here i c w) q
  | land {i j : Nat} {target : Label} {c : Cpu} {w : ω} {q : Status ω}
      (hl : code.labels.getD target.index none = some j) (hij : i < j)
      (hq : Reaches host code (.here j c w) q) : Reaches host code (.bound i target c w) q
  | leave {i : Nat} {item : Item} {how : Departure} {c c' : Cpu} {w w' : ω}
      (hi : code.items[i]? = some item) (hs : step host c w item.instr = .leave how c' w') :
      Reaches host code (.here i c w) (.gone i how c' w')

variable {host : Surroundings ω} {code : Assembler} {p q r : Status ω}

theorem Reaches.trans (h : Reaches host code p q) (h' : Reaches host code q r) :
    Reaches host code p r := by
  induction h with
  | refl => exact h'
  | next hi hs _ ih => exact .next hi hs (ih h')
  | branch hi hs _ ih => exact .branch hi hs (ih h')
  | land hl hij _ ih => exact .land hl hij (ih h')
  | leave hi hs =>
    cases h'
    exact .leave hi hs

def resume (host : Surroundings ω) (code : Assembler) (fuel : Nat) :
    Status ω → Option (Departure × Cpu × ω)
  | .here i c w => run host code fuel i c w
  | .bound _ target c w =>
    (code.labels.getD target.index none).bind fun i => run host code fuel i c w
  | .gone _ how c w => some (how, c, w)

/-- The positions of the instructions that a run from position `i` carries out, in order. -/
def trail (host : Surroundings ω) (code : Assembler) : (fuel : Nat) → (i : Nat) → Cpu → ω → List Nat
  | 0, _, _, _ => []
  | fuel + 1, i, c, w =>
    match code.items[i]? with
    | none => []
    | some item =>
      i :: match step host c w item.instr with
        | .next c w => trail host code fuel (i + 1) c w
        | .jump target c w =>
          ((code.labels.getD target.index none).map fun i => trail host code fuel i c w).getD []
        | .leave .. | .fault => []

def trailFrom (host : Surroundings ω) (code : Assembler) (fuel : Nat) : Status ω → List Nat
  | .here i c w => trail host code fuel i c w
  | .bound _ target c w =>
    ((code.labels.getD target.index none).map fun i => trail host code fuel i c w).getD []
  | .gone .. => []

theorem Reaches.edge_le (h : Reaches host code p q) : p.edge ≤ q.edge := by
  induction h with
  | refl => exact Nat.le_refl _
  | next _ _ _ ih => exact Nat.le_of_succ_le ih
  | branch _ _ _ ih => exact Nat.le_of_succ_le ih
  | land _ hij _ ih => exact Nat.le_trans hij ih
  | leave => exact Nat.le_succ _

theorem Reaches.lt_edge {i : Nat} {c : Cpu} {w : ω} (h : Reaches host code (.here i c w) q)
    (hq : q ≠ .here i c w) : i < q.edge := by
  cases h with
  | refl => exact absurd rfl hq
  | next _ _ h => exact h.edge_le
  | branch _ _ h => exact h.edge_le
  | leave => exact Nat.lt_succ_self i

/-- A run that reaches a status goes on as from there. What it passes lies between the two, in
order, and starts where the run stands. -/
theorem Reaches.passed (h : Reaches host code p q) : ∃ n passed,
    (∀ fuel, resume host code (fuel + n) p = resume host code fuel q ∧
      trailFrom host code (fuel + n) p = passed ++ trailFrom host code fuel q) ∧
    (∀ j ∈ passed, p.edge ≤ j ∧ j < q.edge) ∧ passed.Pairwise (· < ·) ∧
    ∀ i c w, p = .here i c w → i < q.edge → i ∈ passed := by
  induction h with
  | refl p =>
    refine ⟨0, [], fun _ => ⟨rfl, rfl⟩, by simp, .nil, ?_⟩
    rintro i c w rfl hlt
    exact absurd hlt (Nat.lt_irrefl i)
  | @next i item c c' w w' q hi hs hq ih | @branch i item target c c' w w' q hi hs hq ih =>
    obtain ⟨n, passed, hrun, hbounds, hsorted, -⟩ := ih
    refine ⟨n + 1, i :: passed, fun fuel => ?_, ?_, ?_, ?_⟩
    · obtain ⟨hresume, htrail⟩ := hrun fuel
      simp only [resume, trailFrom] at hresume htrail ⊢
      rw [← Nat.add_assoc, run, trail, hi]
      simp only [hs, hresume, htrail, List.cons_append, and_self]
    · have hle := hq.edge_le
      rw [List.forall_mem_cons]
      exact ⟨⟨Nat.le_refl i, hle⟩,
        fun j hj => ⟨Nat.le_of_succ_le (hbounds j hj).1, (hbounds j hj).2⟩⟩
    · exact .cons (fun j hj => (hbounds j hj).1) hsorted
    · rintro _ _ _ ⟨⟩ -
      exact .head _
  | @land i j target c w q hl hij hq ih =>
    obtain ⟨n, passed, hrun, hbounds, hsorted, -⟩ := ih
    refine ⟨n, passed, fun fuel => ?_, ?_, hsorted, ?_⟩
    · obtain ⟨hresume, htrail⟩ := hrun fuel
      simp only [resume, trailFrom, hl] at hresume htrail ⊢
      exact ⟨hresume, htrail⟩
    · exact fun k hk => ⟨Nat.le_trans hij (hbounds k hk).1, (hbounds k hk).2⟩
    · rintro _ _ _ ⟨⟩
  | @leave i item how c c' w w' hi hs =>
    refine ⟨1, [i], fun fuel => ?_, ?_, List.pairwise_singleton _ _, ?_⟩
    · simp only [resume, trailFrom]
      rw [run, trail, hi]
      simp only [hs, List.append_nil, and_self]
    · simp [Status.edge]
    · rintro _ _ _ ⟨⟩ -
      exact .head _

section

variable {c : Cpu} {w : ω} {i k m : Nat} {r : Departure × Cpu × ω}

theorem run_mono (h : run host code m i c w = some r) (hle : m ≤ k) :
    run host code k i c w = some r := by
  induction m generalizing i k c w with
  | zero => cases h
  | succ m ih =>
    obtain ⟨k, rfl⟩ := Nat.exists_eq_add_of_le' (Nat.le_trans (Nat.le_add_left 1 m) hle)
    have hle : m ≤ k := Nat.le_of_succ_le_succ hle
    rw [run] at h ⊢
    cases hi : code.items[i]? with
    | none => rw [hi] at h; cases h
    | some item =>
      rw [hi] at h
      dsimp only at h ⊢
      cases hs : step host c w item.instr with
      | next c' w' => rw [hs] at h; exact ih h hle
      | jump target c' w' =>
        rw [hs] at h
        obtain ⟨j, hj, hrun⟩ := Option.bind_eq_some_iff.mp h
        exact Option.bind_eq_some_iff.mpr ⟨j, hj, ih hrun hle⟩
      | leave how c' w' => rw [hs] at h; exact h
      | fault => rw [hs] at h; cases h

theorem length_trail_le : (trail host code m i c w).length ≤ m := by
  induction m generalizing i c w with
  | zero => exact Nat.le_refl 0
  | succ m ih =>
    rw [trail]
    cases code.items[i]? with
    | none => exact Nat.zero_le _
    | some item =>
      dsimp only
      cases step host c w item.instr with
      | next c' w' => exact Nat.succ_le_succ ih
      | jump target c' w' =>
        dsimp only
        cases code.labels.getD target.index none with
        | none => exact Nat.succ_le_succ (Nat.zero_le _)
        | some j => exact Nat.succ_le_succ ih
      | leave how c' w' => exact Nat.succ_le_succ (Nat.zero_le _)
      | fault => exact Nat.succ_le_succ (Nat.zero_le _)

end

end Exec

end Dynarec.Host
