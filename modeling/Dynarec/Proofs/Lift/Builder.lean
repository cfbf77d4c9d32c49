import Dynarec.Proofs.Lift.Steps

/-!
# Combinators write proper code

What each combinator adds, and the type of the value it returns.
-/

set_option synthInstance.maxSize 1000

namespace Dynarec.Lift

open Guest (AccessSize Cond Flag Mode)
open IR (Comparison Field GuestReg Instruction Ty)

variable {mode : Mode} {pc : UInt64} {part : Part} {types : List Ty} {x : Build Unit} {ty ty' : Ty}
  {v a b c : Value} {inst : Instruction} {sources : List Value} {n : Nat} {field : Field}
  {carry : CarryIn} {known : List (Value × Ty)}

instance emits_onlyIf (wanted : Bool) [h : Emits mode pc part known x fun _ => []] :
    Emits mode pc part known (onlyIf wanted x) fun _ => [] :=
  inferInstanceAs (Emits mode pc part known (if wanted then x else pure ()) _)

/-! ### Values -/

theorem emits_mention (hv : ∀ types, Knows mode types known → v.Known mode types)
    (hty : v.ty = ty) : Emits mode pc part known (mention v) fun w => [(w, ty)] where
  emits types hknown :=
    ⟨types, .mention (hv types hknown) .nil, rfl, knows_one ⟨hv types hknown, hty⟩⟩

instance emits_const (value : UInt64) (ty : Ty) :
    Emits mode pc part known (const value ty) fun w => [(w, ty)] :=
  emits_mention (fun _ _ => trivial) rfl

theorem emits_emit (ty : Ty) (hinst : isComputation inst = true) (hlength : sources.length ≤ 3)
    (hsources : ∀ v ∈ sources, ∃ ty, Finds (some v) ty known)
    (hcompare : ∀ cmp, inst = .compare cmp → ∀ types, Knows mode types known →
      ∀ v ∈ sources, v.ty = sourceTy sources) :
    Emits mode pc part known (emit inst ty sources) fun w => [(w, ty)] where
  emits types hknown := by
    refine ⟨types ++ [ty], .compute hinst hlength (fun v hv => ?_)
      (fun cmp hcmp => hcompare cmp hcmp types hknown) .nil, by simp [emit], knows_one ⟨?_, rfl⟩⟩
    · obtain ⟨ty, hfinds⟩ := hsources v hv
      exact (hfinds.has hknown).known
    · simp [emit, Value.Known]

@[reducible] def isPlain : Instruction → Bool
  | .add | .subtract | .multiply | .multiplyHighSigned | .multiplyHighUnsigned | .divideSigned
  | .divideUnsigned | .and | .or | .xor | .not | .negate | .shiftLeft | .shiftRightLogical
  | .shiftRightArithmetic | .rotateRight | .countLeadingZeros | .byteSwap | .select | .zeroExtend8
  | .zeroExtend16 | .zeroExtend32 | .signExtend8 | .signExtend16 | .signExtend32 | .truncate => true
  | _ => false

def isPure : Instruction → Bool
  | .compare _ => true
  | inst => isPlain inst

/-- A test that instance search evaluates. -/
class Passed (test : Bool) : Prop where
  eq : test = true

instance passed_true : Passed true := ⟨rfl⟩

abbrev Plain (inst : Instruction) : Prop := Passed (isPlain inst)

instance plain_ite {c : Prop} [Decidable c] {inst' : Instruction} [h : Plain inst]
    [h' : Plain inst'] : Plain (if c then inst else inst') := by
  split
  · exact h
  · exact h'

theorem emits_plain (ty : Ty) (hinst : isPlain inst = true) (hlength : sources.length ≤ 3)
    (hsources : ∀ v ∈ sources, ∃ ty, Finds (some v) ty known) :
    Emits mode pc part known (emit inst ty sources) fun w => [(w, ty)] := by
  refine emits_emit ty ?_ hlength hsources ?_
  · cases inst <;> first | exact hinst | cases hinst
  · rintro cmp rfl
    cases hinst

instance emits_readCounter : Emits mode pc part known (emit .readCounter ty []) fun w =>
    [(w, ty)] :=
  emits_emit ty rfl (by simp) (by simp) fun _ h => by cases h

instance emits_readFrequency : Emits mode pc part known (emit .readFrequency ty []) fun w =>
    [(w, ty)] :=
  emits_emit ty rfl (by simp) (by simp) fun _ h => by cases h

instance emits_emit_one [h : Plain inst] [ha : Finds (some a) ty' known] :
    Emits mode pc part known (emit inst ty [a]) fun w => [(w, ty)] :=
  emits_plain ty h.eq (by simp) (by simpa using ⟨_, ha⟩)

/-- The type of a known value. -/
theorem emits_of_ty {x : Build Value} (ha : Finds (some a) ty known)
    (h : Emits mode pc part known x fun w => [(w, a.ty)]) :
    Emits mode pc part known x fun w => [(w, ty)] where
  emits types hknown := (ha.has hknown).ty_eq ▸ h.emits types hknown

theorem emits_known {x : Build Value} (h : Emits mode pc part known x fun w => [(w, ty)]) :
    Emits mode pc part known x fun w => [(w, w.ty)] where
  emits types hknown := by
    obtain ⟨types', hsteps, htemps, hout⟩ := h.emits types hknown
    exact ⟨types', hsteps, htemps, knows_one ⟨(hout _ (.head _)).known, rfl⟩⟩

instance emits_unary [h : Plain inst] [ha : Finds (some a) ty known] :
    Emits mode pc part known (unary inst a) fun w => [(w, ty)] :=
  emits_of_ty ha (emits_plain a.ty h.eq (by simp) (by simpa using ⟨_, ha⟩))

instance emits_binary [h : Plain inst] [ha : Finds (some a) ty known]
    [hb : Finds (some b) ty' known] :
    Emits mode pc part known (binary inst a b) fun w => [(w, ty)] :=
  emits_of_ty ha (emits_plain a.ty h.eq (by simp) (by simpa using ⟨⟨_, ha⟩, _, hb⟩))

instance emits_binaryImm (imm : UInt64) [h : Plain inst] [ha : Finds (some a) ty known] :
    Emits mode pc part known (binaryImm inst a imm) fun w => [(w, ty)] :=
  inferInstanceAs (Emits mode pc part known (const imm a.ty >>= binary inst a) _)

instance emits_resize [ha : Finds (some a) ty' known] :
    Emits mode pc part known (resize a ty) fun w => [(w, ty)] := by
  cases hty : a.ty <;> cases ty <;> simp only [resize, hty]
  · exact emits_pure fun _ hknown => knows_one ⟨(ha.has hknown).known, hty⟩
  · infer_instance
  · infer_instance
  · exact emits_pure fun _ hknown => knows_one ⟨(ha.has hknown).known, hty⟩

theorem emits_compare (cmp : Comparison) (ha : Finds (some a) ty known)
    (hb : Finds (some b) ty' known) (hty : ∀ types, Knows mode types known → b.ty = a.ty) :
    Emits mode pc part known (compare cmp a b) fun w => [(w, .i32)] := by
  refine emits_emit .i32 rfl (by simp) (by simpa using ⟨⟨_, ha⟩, _, hb⟩)
    fun _ _ types hknown v hv => ?_
  rcases List.mem_cons.mp hv with rfl | hv
  · rfl
  · exact List.mem_singleton.mp hv ▸ hty types hknown

instance emits_compare_same (cmp : Comparison) [ha : Finds (some a) ty known]
    [hb : Finds (some b) ty known] :
    Emits mode pc part known (compare cmp a b) fun w => [(w, .i32)] :=
  emits_compare cmp ha hb fun _ hknown => (hb.has hknown).ty_eq.trans (ha.has hknown).ty_eq.symm

instance emits_compareImm (cmp : Comparison) (imm : UInt64) [ha : Finds (some a) ty known] :
    Emits mode pc part known (compareImm cmp a imm) fun w => [(w, .i32)] :=
  emits_bind inferInstance fun _ => emits_compare cmp inferInstance inferInstance fun _ hknown =>
    (hknown _ (.head _)).ty_eq

instance emits_select [ha : Finds (some a) ty known] [hb : Finds (some b) ty' known] {ty'' : Ty}
    [hc : Finds (some c) ty'' known] :
    Emits mode pc part known (select a b c) fun w => [(w, ty')] :=
  emits_of_ty hb (emits_plain b.ty rfl (by simp) (by simpa using ⟨⟨_, ha⟩, ⟨_, hb⟩, _, hc⟩))

instance emits_signBit [ha : Finds (some a) ty known] :
    Emits mode pc part known (signBit a) fun w => [(w, .i32)] := by
  dsimp only [signBit]
  infer_instance

/-! ### Guest state -/

theorem emits_gpr (hn : n < 32) :
    Emits mode pc part known (gpr n) fun w => [(w, gprType mode)] where
  emits types _ :=
    ⟨types, .mention ⟨hn, rfl⟩ .nil, rfl, knows_one (v := .reg (.gpr n) _) ⟨⟨hn, rfl⟩, rfl⟩⟩

instance emits_flag (f : Flag) : Emits mode pc part known (flag f) fun w => [(w, .i32)] :=
  emits_mention (fun _ _ => ⟨trivial, rfl⟩) rfl

theorem emits_writeGpr (hn : n < 32) [hv : Finds (some v) ty known] :
    Emits mode pc .update known (writeGpr n v) fun _ => [] := by
  refine emits_bind (emits_gpr hn) fun r => emits_bind inferInstance fun w => emits_add ?_
  intro types hknown
  have hr : r.Has mode types (gprType mode) := hknown _ (.tail _ (.head _))
  have hw : w.Has mode types r.ty := hknown _ (.head _)
  rw [hr.ty_eq] at hw ⊢
  exact .assign hn hw .nil

instance emits_setFlag (f : Flag) [hv : Finds (some v) .i32 known] :
    Emits mode pc .update known (setFlag f v) fun _ => [] := by
  refine emits_bind inferInstance fun r => emits_add fun types hknown => ?_
  have hr : r.Has mode types .i32 := hknown _ (.head _)
  rw [hr.ty_eq]
  exact .assign trivial (hv.has fun e he => hknown e (.tail _ he)) .nil

@[reducible] def isSpecial : Field → Bool
  | .register _ => false
  | _ => true

instance emits_loadContext [h : Passed (isSpecial field)] :
    Emits mode pc part known (loadContext field ty) fun w => [(w, ty)] := by
  refine emits_emit ty ?_ (by simp) (by simp) fun _ h => by cases h
  cases field <;> first | rfl | cases h.eq

/-- Instructions that change the guest state, or let the host do so. -/
abbrev Updates (inst : Instruction) : Prop := Passed (isUpdate inst)

theorem emits_effect (hinst : isUpdate inst = true) (hlength : sources.length ≤ 3)
    (hsources : ∀ v ∈ sources, ∃ ty, Finds (some v) ty known) :
    Emits mode pc .update known (effect inst sources) fun _ => [] := by
  refine emits_add fun types hknown => .perform hinst hlength (fun v hv => ?_) .nil
  obtain ⟨ty, hfinds⟩ := hsources v hv
  exact (hfinds.has hknown).known

instance emits_effect_one [h : Updates inst] [hv : Finds (some v) ty known] :
    Emits mode pc .update known (effect inst [v]) fun _ => [] :=
  emits_effect h.eq (by simp) (by simpa using ⟨_, hv⟩)

instance emits_storeContext [h : Passed (isSpecial field)] [hv : Finds (some v) ty known] :
    Emits mode pc .update known (storeContext field v) fun _ => [] := by
  refine emits_effect ?_ (by simp) (by simpa using ⟨_, hv⟩)
  cases field <;> first | rfl | cases h.eq

/-! ### Control flow -/

theorem emits_addDispatch (hv : Finds (some v) ty known) :
    Emits mode pc .update known (add (.dispatch v)) fun _ => [] :=
  emits_add fun _ hknown => .dispatch (hv.has hknown).known .nil

instance emits_dispatch [hv : Finds (some v) ty known] :
    Emits mode pc .update known (dispatch v) fun _ => [] :=
  emits_bind inferInstance fun _ => emits_addDispatch inferInstance

instance emits_dispatchTo (address : UInt64) :
    Emits mode pc .update known (dispatchTo address) fun _ => [] :=
  emits_bind inferInstance fun _ => emits_addDispatch inferInstance

instance emits_load (size : AccessSize) [ha : Finds (some a) ty' known] :
    Emits mode pc .access known (load size a ty pc) fun w => [(w, ty)] where
  emits types hknown := by
    refine ⟨types ++ [ty], .load (ha.has hknown).known .nil, ?_,
      knows_one ⟨List.getElem?_concat_length, rfl⟩⟩
    rw [List.length_append]
    rfl

instance emits_store (size : AccessSize) [ha : Finds (some a) ty known]
    [hv : Finds (some v) ty' known] :
    Emits mode pc .access known (store size a v pc) fun _ => [] where
  emits types hknown :=
    ⟨types, .store (ha.has hknown).known (hv.has hknown).known .nil, rfl, fun _ h => by cases h⟩

instance emits_raise (at_ payload next : UInt64) [hinst : Updates inst] :
    Emits mode pc .update known (raise inst at_ payload next) fun _ => [] := by
  refine emits_bind inferInstance fun a => emits_bind inferInstance fun b => ?_
  refine emits_bind (emits_effect hinst.eq (by simp) ?_) fun _ => ?_
  · simpa using ⟨⟨_, inferInstance⟩, _, inferInstance⟩
  · exact emits_bind (emits_add fun _ _ => .haltCheck next .nil) fun _ => inferInstance

/-! ### Conditions and flags -/

instance emits_condition (cond : Cond) :
    Emits mode pc part known (condition cond) fun w => [(w, .i32)] := by
  cases cond <;> dsimp only [condition] <;> infer_instance

/-- The carry into a sum is a known value of type `i32`, if it is one. -/
class Carries (carry : CarryIn) (known : List (Value × Ty)) : Prop where
  finds : ∀ c, carry = .value c → Finds (some c) .i32 known

instance carries_zero : Carries .zero known := ⟨fun _ h => by cases h⟩

instance carries_one : Carries .one known := ⟨fun _ h => by cases h⟩

instance carries_value [h : Finds (some c) .i32 known] : Carries (.value c) known :=
  ⟨fun _ heq => CarryIn.value.inj heq ▸ h⟩

instance carries_append {known' : List (Value × Ty)} [h : Carries carry known'] :
    Carries carry (known ++ known') :=
  ⟨fun c heq => have := h.finds c heq; inferInstance⟩

instance emits_addCarry [ha : Finds (some a) ty known] [hcarry : Carries carry known] :
    Emits mode pc part known (addCarry a carry) fun w => [(w, ty)] := by
  cases carry with
  | zero => exact inferInstanceAs (Emits mode pc part known (pure a) _)
  | one => exact inferInstanceAs (Emits mode pc part known (binaryImm .add a 1) _)
  | value c =>
    have := hcarry.finds c rfl
    exact inferInstanceAs (Emits mode pc part known (do
      let c ← resize c a.ty
      binary .add a c) _)

instance emits_carryOut [ha : Finds (some a) ty known] [hb : Finds (some b) ty known]
    [hcarry : Carries carry known] :
    Emits mode pc part known (carryOut a b carry) fun w => [(w, .i32)] := by
  cases carry with
  | zero => exact inferInstanceAs (Emits mode pc part known (compare .ult a b) _)
  | one => exact inferInstanceAs (Emits mode pc part known (compare .ule a b) _)
  | value c =>
    have := hcarry.finds c rfl
    exact inferInstanceAs (Emits mode pc part known (do
      let with_ ← compare .ule a b
      let without ← compare .ult a b
      select c with_ without) _)

abbrev FlaggedSum.entries (ty : Ty) (s : FlaggedSum) : List (Value × Ty) :=
  [(s.result, ty), (s.n, .i32), (s.z, .i32), (s.c, .i32), (s.v, .i32)]

instance emits_pure_sum {r n z c v : Value} [hr : Finds (some r) ty known]
    [hn : Finds (some n) .i32 known] [hz : Finds (some z) .i32 known]
    [hc : Finds (some c) .i32 known] [hv : Finds (some v) .i32 known] :
    Emits mode pc part known (pure (FlaggedSum.mk r n z c v)) (FlaggedSum.entries ty) :=
  emits_pure fun _ hknown => by
    simp only [Knows, FlaggedSum.entries, List.forall_mem_cons]
    exact ⟨hr.has hknown, hn.has hknown, hz.has hknown, hc.has hknown, hv.has hknown,
      fun _ h => by cases h⟩

section

variable [ha : Finds (some a) ty known] [hb : Finds (some b) ty' known]
  [hcarry : Carries carry known]

include ha hb hcarry

instance emits_addWithCarry : Emits mode pc part known (addWithCarry a b carry)
    (FlaggedSum.entries ty) := by
  dsimp only [addWithCarry]
  infer_instance

instance emits_subWithCarry : Emits mode pc part known (subWithCarry a b carry)
    (FlaggedSum.entries ty) := by
  dsimp only [subWithCarry]
  infer_instance

end

instance emits_addOrSub (sub : Bool) [ha : Finds (some a) ty known] [hb : Finds (some b) ty' known]
    [hcarry : Carries carry known] :
    Emits mode pc part known (addOrSub sub a b carry) (FlaggedSum.entries ty) := by
  dsimp only [addOrSub]
  infer_instance

instance emits_setNZCV {s : FlaggedSum} [hn : Finds (some s.n) .i32 known]
    [hz : Finds (some s.z) .i32 known] [hc : Finds (some s.c) .i32 known]
    [hv : Finds (some s.v) .i32 known] :
    Emits mode pc .update known (setNZCV s) fun _ => [] := by
  dsimp only [setNZCV]
  infer_instance

instance emits_setNZ [hv : Finds (some v) ty known] :
    Emits mode pc .update known (setNZ v) fun _ => [] := by
  dsimp only [setNZ]
  infer_instance

/-! ### Instructions -/

theorem Build.Proper.code (h : x.Proper mode pc []) : (x.code mode).Proper mode pc :=
  ⟨h.proper [] fun _ h => (by cases h), fun _ _ hguard => by cases hguard⟩

theorem proper_conditional (cond : Cond) (hmode : mode = .a32) (h : x.Proper mode pc []) :
    (conditional mode cond x).Proper mode pc := by
  unfold conditional
  split
  · exact h.code
  · refine ⟨h.code.body, fun steps taken hguard => ?_⟩
    obtain ⟨rfl, rfl⟩ := Prod.mk.inj (Option.some.inj hguard)
    have hcond : Emits mode pc .access [] (condition cond) _ := inferInstance
    obtain ⟨types, hsteps, -, htaken⟩ := hcond.emits [] fun _ h => by cases h
    exact ⟨hmode, types, hsteps, (htaken _ (.head _)).known⟩

end Dynarec.Lift
