import Dynarec.Proofs.Guest.Architecture
import Dynarec.Proofs.IR.Words
import Dynarec.Proofs.Lift.Faults

/-!
# Values of code

The words that code computes. A register stands for what it holds where it is used; constants and
results stay what they are when registers change.
-/

set_option synthInstance.maxSize 1000

namespace Dynarec.Lift

open Guest (Cond Flag Mode Nzcv)
open IR (Comparison Host Instruction Leave Ty flagWord)

structure Fact where
  value : Value
  ty : Ty
  word : Context → UInt64

/-- The fact is true where these results are, and stays so when there are more. -/
structure Fact.Holds (temps : List UInt64) (e : Fact) : Prop where
  ty_eq : e.value.ty = e.ty
  eval_eq : ∀ more c, e.value.eval c (temps ++ more) = e.word c

@[simp] def seen (c : Context) (f : Context → UInt64) : UInt64 := f c

class Tells (v : Value) (ty : outParam Ty) (f : outParam (Context → UInt64)) (known : List Fact) :
    Prop where
  mem : ⟨v, ty, f⟩ ∈ known

section Tells

variable {v : Value} {ty : Ty} {f : Context → UInt64} {e : Fact} {known known' : List Fact}

instance tells_tail [h : Tells v ty f known] : Tells v ty f (e :: known) := ⟨.tail _ h.mem⟩

instance tells_head : Tells v ty f (⟨v, ty, f⟩ :: known) := ⟨.head _⟩

instance tells_append_right [h : Tells v ty f known'] : Tells v ty f (known ++ known') :=
  ⟨List.mem_append_right _ h.mem⟩

instance tells_append_left [h : Tells v ty f known] : Tells v ty f (known ++ known') :=
  ⟨List.mem_append_left _ h.mem⟩

end Tells

variable {ω : Type}

/-- Where the facts hold, the code goes from one world to another, and the facts that `out` gives
hold of its value. -/
class Runs {α : Type} (host : Host ω) (mode : Mode) (known : List Fact) (x : Build α) (w : ω)
    (w' : outParam ω) (out : outParam (α → List Fact)) : Prop where
  runs : ∀ temps, (∀ e ∈ known, e.Holds temps) → ∃ more,
    evalSteps host (x mode temps.length).steps temps w = .on (temps ++ more) w' ∧
      (x mode temps.length).temps = (temps ++ more).length ∧
        ∀ e ∈ out (x mode temps.length).value, e.Holds (temps ++ more)

class Ends {α : Type} (host : Host ω) (mode : Mode) (known : List Fact) (x : Build α) (w : ω)
    (how : outParam Leave) (w' : outParam ω) : Prop where
  ends : ∀ temps, (∀ e ∈ known, e.Holds temps) →
    evalSteps host (x mode temps.length).steps temps w = .left how w'

variable {α β : Type} {host : Host ω} {mode : Mode} {known : List Fact} {w w' w₁ w₂ : ω}
  {x : Build α} {k : α → Build β} {out : α → List Fact} {out' : β → List Fact} {temps : List UInt64}
  {ty ty' ty'' : Ty} {a b d v : Value} {how : Leave} {inst : Instruction} {f g h : Context → UInt64}

theorem Fact.Holds.append {e : Fact} (h : e.Holds temps) (more : List UInt64) :
    e.Holds (temps ++ more) :=
  ⟨h.ty_eq, fun rest c => by
    rw [List.append_assoc]
    exact h.eval_eq _ c⟩

theorem holds_append {more : List UInt64} {new : List Fact} (h : ∀ e ∈ known, e.Holds temps)
    (hnew : ∀ e ∈ new, e.Holds (temps ++ more)) : ∀ e ∈ new ++ known, e.Holds (temps ++ more) :=
  fun e he => (List.mem_append.mp he).elim (hnew e) fun hmem => (h e hmem).append more

theorem Tells.ty_eq (ha : Tells a ty f known) (h : ∀ e ∈ known, e.Holds temps) : a.ty = ty :=
  (h _ ha.mem).ty_eq

theorem Tells.eval_eq (ha : Tells a ty f known) (h : ∀ e ∈ known, e.Holds temps) (c : Context) :
    a.eval c temps = f c := by
  simpa using (h _ ha.mem).eval_eq [] c

/-! ### Code in sequence -/

theorem runs_bind (hx : Runs host mode known x w w₁ out)
    (hk : ∀ a, Runs host mode (out a ++ known) (k a) w₁ w₂ out') :
    Runs host mode known (x >>= k) w w₂ out' where
  runs temps hknown := by
    obtain ⟨more, hsteps, htemps, hout⟩ := hx.runs temps hknown
    obtain ⟨more', hsteps', htemps', hout'⟩ := (hk _).runs _ (holds_append hknown hout)
    rw [← htemps] at hsteps' htemps' hout'
    refine ⟨more ++ more', ?_⟩
    rw [← List.append_assoc]
    refine ⟨?_, htemps', hout'⟩
    exact (evalSteps_append ..).trans (by rw [hsteps]; exact hsteps')

instance runs_seq [hx : Runs host mode known x w w₁ out]
    [hk : ∀ a, Runs host mode (out a ++ known) (k a) w₁ w₂ out'] :
    Runs host mode known (x >>= k) w w₂ out' :=
  runs_bind hx hk

instance ends_seq [hx : Runs host mode known x w w₁ out]
    [hk : ∀ a, Ends host mode (out a ++ known) (k a) w₁ how w₂] :
    Ends host mode known (x >>= k) w how w₂ where
  ends temps hknown := by
    obtain ⟨more, hsteps, htemps, hout⟩ := hx.runs temps hknown
    have hends := (hk (x mode temps.length).value).ends (temps ++ more) (holds_append hknown hout)
    rw [← htemps] at hends
    exact (evalSteps_append ..).trans (by rw [hsteps]; exact hends)

theorem runs_pure {a : α} (h : ∀ temps, (∀ e ∈ known, e.Holds temps) → ∀ e ∈ out a, e.Holds temps) :
    Runs host mode known (pure a) w w out where
  runs temps hknown := by
    refine ⟨[], ?_⟩
    rw [List.append_nil]
    exact ⟨rfl, rfl, h temps hknown⟩

instance runs_pure_unit : Runs host mode known (pure ()) w w fun _ => [] :=
  runs_pure fun _ _ _ h => by cases h

instance runs_pure_value [hv : Tells v ty f known] :
    Runs host mode known (pure v) w w fun u => [⟨u, ty, f⟩] :=
  runs_pure fun _ hknown => List.forall_mem_singleton.mpr (hknown _ hv.mem)

instance runs_onlyIf (wanted : Bool) {x : Build Unit}
    [h : Runs host mode known x w w' fun _ => []] :
    Runs host mode known (onlyIf wanted x) w (if wanted then w' else w) fun _ => [] := by
  cases wanted
  · exact inferInstanceAs (Runs host mode known (pure ()) w w _)
  · exact h

instance runs_forM_nil {γ : Type} {k : γ → Build Unit} :
    Runs host mode known (List.forM [] k) w w fun _ => [] :=
  inferInstanceAs (Runs host mode known (pure ()) w w _)

instance runs_forM_cons {γ : Type} {c : γ} {l : List γ} {k : γ → Build Unit}
    [hc : Runs host mode known (k c) w w₁ fun _ => []]
    [hl : Runs host mode known (l.forM k) w₁ w₂ fun _ => []] :
    Runs host mode known (List.forM (c :: l) k) w w₂ fun _ => [] :=
  runs_bind hc fun _ => hl

/-! ### Operations -/

theorem runs_mention (hty : v.ty = ty) (hv : ∀ temps c, v.eval c temps = f c) :
    Runs host mode known (mention v) w w fun u => [⟨u, ty, f⟩] where
  runs temps _ := by
    refine ⟨[], ?_⟩
    rw [List.append_nil]
    exact ⟨rfl, rfl, List.forall_mem_singleton.mpr ⟨hty, fun _ c => hv _ c⟩⟩

instance runs_const (value : UInt64) (ty : Ty) :
    Runs host mode known (const value ty) w w fun v => [⟨v, ty, fun _ => value &&& ty.mask⟩] :=
  runs_mention rfl fun _ _ => rfl

instance runs_flag (f : Flag) : Runs host mode known (flag f) w w
    fun v => [⟨v, .i32, fun c => (c.flag f).toUInt64 &&& Ty.i32.mask⟩] :=
  runs_mention rfl fun _ _ => rfl

instance runs_gpr (n : Nat) : Runs host mode known (gpr n) w w
    fun v => [⟨v, gprType mode, fun c => c.gpr n &&& (gprType mode).mask⟩] where
  runs := (runs_mention (v := .reg (.gpr n) (gprType mode)) rfl fun _ _ => rfl).runs

/-- The type of a known value. -/
theorem Runs.of_ty (ha : Tells a ty f known) (h : a.ty = ty → Runs host mode known x w w' out) :
    Runs host mode known x w w' out where
  runs temps hknown := (h (ha.ty_eq hknown)).runs temps hknown

/-- Code that takes its type from a known value. -/
theorem runs_of_ty {k : Ty → Build α} (ha : Tells a ty f known)
    (h : Runs host mode known (k ty) w w' out) : Runs host mode known (k a.ty) w w' out :=
  .of_ty ha fun hty => hty ▸ h

theorem act_pure (hinst : isPure inst = true) (ty : Ty) (sources : List Value) :
    act host inst ty sources temps w = (some (inst.pureValue ty (sourceTy sources)
      (argument (host.context w) temps sources 0) (argument (host.context w) temps sources 1)
      (argument (host.context w) temps sources 2)), w) := by
  cases inst <;> first | rfl | cases hinst

theorem Plain.isPure [h : Plain inst] : isPure inst = true := by
  cases inst <;> first | exact h.eq | cases h.eq

theorem runs_emit (hinst : isPure inst = true) (sources : List Value) {x y z : UInt64}
    (h : ∀ temps, (∀ e ∈ known, e.Holds temps) → sourceTy sources = ty' ∧
      argument (host.context w) temps sources 0 = x ∧
      argument (host.context w) temps sources 1 = y ∧
      argument (host.context w) temps sources 2 = z) :
    Runs host mode known (emit inst ty sources) w w
      fun v => [⟨v, ty, fun _ => inst.pureValue ty ty' x y z⟩] where
  runs temps hknown := by
    obtain ⟨hty, hx, hy, hz⟩ := h temps hknown
    refine ⟨[inst.pureValue ty ty' x y z], ?_, by simp [emit],
      List.forall_mem_singleton.mpr ⟨rfl, fun more c => ?_⟩⟩
    · simp only [emit, evalSteps, Step.eval, act_pure hinst, hty, hx, hy, hz]
      rfl
    · simp [emit, Value.eval]

instance runs_emit_one [Plain inst] [ha : Tells a ty' f known] :
    Runs host mode known (emit inst ty [a]) w w
      fun v => [⟨v, ty, fun _ => inst.pureValue ty ty' (seen (host.context w) f) 0 0⟩] :=
  runs_emit Plain.isPure _ fun _ hknown => ⟨ha.ty_eq hknown, ha.eval_eq hknown _, rfl, rfl⟩

instance runs_emit_two [Plain inst] [ha : Tells a ty' f known] [hb : Tells b ty'' g known] :
    Runs host mode known (emit inst ty [a, b]) w w fun v => [⟨v, ty, fun _ =>
      inst.pureValue ty ty' (seen (host.context w) f) (seen (host.context w) g) 0⟩] :=
  runs_emit Plain.isPure _ fun _ hknown =>
    ⟨ha.ty_eq hknown, ha.eval_eq hknown _, hb.eval_eq hknown _, rfl⟩

instance runs_unary [Plain inst] [ha : Tells a ty f known] : Runs host mode known (unary inst a) w w
    fun v => [⟨v, ty, fun _ => inst.pureValue ty ty (seen (host.context w) f) 0 0⟩] :=
  runs_of_ty (k := (emit inst · [a])) ha inferInstance

instance runs_binary [Plain inst] [ha : Tells a ty f known] [hb : Tells b ty' g known] :
    Runs host mode known (binary inst a b) w w fun v => [⟨v, ty, fun _ =>
        inst.pureValue ty ty (seen (host.context w) f) (seen (host.context w) g) 0⟩] :=
  runs_of_ty (k := (emit inst · [a, b])) ha inferInstance

instance runs_binaryImm (imm : UInt64) [Plain inst] [ha : Tells a ty f known] :
    Runs host mode known (binaryImm inst a imm) w w fun v => [⟨v, ty, fun _ =>
        inst.pureValue ty ty (seen (host.context w) f) (imm &&& ty.mask) 0⟩] :=
  runs_of_ty (k := fun t => const imm t >>= fun b => emit inst t [a, b]) ha inferInstance

instance runs_compare (cmp : Comparison) [ha : Tells a ty f known] [hb : Tells b ty' g known] :
    Runs host mode known (compare cmp a b) w w fun v => [⟨v, .i32, fun _ =>
      Instruction.pureValue (.compare cmp) .i32 ty (seen (host.context w) f)
        (seen (host.context w) g) 0⟩] :=
  runs_emit rfl [a, b] fun _ hknown =>
    ⟨ha.ty_eq hknown, ha.eval_eq hknown _, hb.eval_eq hknown _, rfl⟩

instance runs_compareImm (cmp : Comparison) (imm : UInt64) [ha : Tells a ty f known] :
    Runs host mode known (compareImm cmp a imm) w w fun v => [⟨v, .i32, fun _ =>
      Instruction.pureValue (.compare cmp) .i32 ty (seen (host.context w) f)
        (imm &&& ty.mask) 0⟩] :=
  runs_of_ty (k := fun t => const imm t >>= compare cmp a) ha inferInstance

instance runs_select [ha : Tells a ty f known] [hb : Tells b ty' g known]
    [hd : Tells d ty'' h known] :
    Runs host mode known (select a b d) w w fun v => [⟨v, ty', fun _ =>
      Instruction.pureValue .select ty' ty (seen (host.context w) f) (seen (host.context w) g)
        (seen (host.context w) h)⟩] :=
  runs_of_ty (k := (emit .select · [a, b, d])) hb (runs_emit rfl _ fun _ hknown =>
    ⟨ha.ty_eq hknown, ha.eval_eq hknown _, hb.eval_eq hknown _, hd.eval_eq hknown _⟩)

def resized (ty ty' : Ty) (v : UInt64) : UInt64 :=
  match ty, ty' with
  | .i32, .i64 => Instruction.pureValue .zeroExtend32 .i64 .i32 v 0 0
  | .i64, .i32 => Instruction.pureValue .truncate .i32 .i64 v 0 0
  | _, _ => v

theorem resized_i64 (v : UInt64) : resized ty .i64 v = ty.extend (ty.cut v) := by
  cases ty
  · change (v &&& Ty.i32.mask) &&& Ty.i64.mask = _
    rw [Ty.and_mask v, Ty.and_mask]
    rfl
  · exact congrArg UInt64.ofBitVec ((BitVec.setWidth_eq _).trans (BitVec.setWidth_eq _)).symm

instance runs_resize [ha : Tells a ty f known] : Runs host mode known (resize a ty') w w
    fun v => [⟨v, ty', fun c =>
      resized ty ty' (seen (if ty = ty' then c else host.context w) f)⟩] := by
  refine .of_ty ha fun hty => ?_
  cases ty <;> cases ty' <;> simp only [resize, hty]
  · exact inferInstanceAs (Runs host mode known (pure a) w w _)
  · exact inferInstanceAs (Runs host mode known (emit .zeroExtend32 _ [a]) w w _)
  · exact inferInstanceAs (Runs host mode known (emit .truncate _ [a]) w w _)
  · exact inferInstanceAs (Runs host mode known (pure a) w w _)

instance runs_resize_like [ha : Tells a ty f known] [hb : Tells b ty' g known] :
    Runs host mode known (resize a b.ty) w w fun v => [⟨v, ty', fun c =>
        resized ty ty' (seen (if ty = ty' then c else host.context w) f)⟩] :=
  runs_of_ty (k := resize a) hb inferInstance

theorem Runs.world_eq (h : Runs host mode known x w w₁ out) (heq : w₁ = w₂) :
    Runs host mode known x w w₂ out :=
  heq ▸ h

theorem Ends.congr {how' : Leave} (h : Ends host mode known x w how w₁) (hhow : how = how')
    (heq : w₁ = w₂) : Ends host mode known x w how' w₂ :=
  hhow ▸ heq ▸ h

theorem Runs.congr {out' : α → List Fact} (h : Runs host mode known x w w' out)
    (hout : ∀ a, out a = out' a) : Runs host mode known x w w' out' :=
  funext hout ▸ h

theorem resized_extend (x : ty.Word) :
    resized ty ty' (ty.extend x) = ty'.extend (x.setWidth ty'.bits) := by
  cases ty <;> cases ty'
  · exact congrArg Ty.i32.extend (BitVec.setWidth_eq x).symm
  · change (Ty.i32.extend x &&& Ty.i32.mask) &&& Ty.i64.mask = _
    rw [Ty.extend_and_mask, Ty.and_mask]
    rfl
  · change (Ty.i64.extend x &&& Ty.i32.mask) &&& Ty.i32.mask = _
    rw [Ty.and_mask, Ty.cut_and_mask]
    exact congrArg Ty.i32.extend (congrArg (·.setWidth 32) (BitVec.setWidth_eq x))
  · exact congrArg Ty.i64.extend (BitVec.setWidth_eq x).symm

instance runs_signBit [ha : Tells a ty f known] : Runs host mode known (signBit a) w w
    fun v => [⟨v, .i32, fun _ =>
      Ty.i32.extend (flagWord (ty.cut (seen (host.context w) f)).msb)⟩] := by
  refine (runs_of_ty (k := fun t => do
    let shifted ← binaryImm .shiftRightLogical a (t.bits - 1).toUInt64
    resize shifted .i32) ha inferInstance).congr fun v => ?_
  have hamount : (ty.cut (ty.bits - 1).toUInt64).toNat % ty.bits = ty.bits - 1 := by
    cases ty <;> rfl
  simp only [seen, IR.Wordwise.pureValue_eq, resized_extend, Ty.cut_and_mask,
    Instruction.onWords, hamount, IR.setWidth_msb]

/-! ### Sums -/

abbrev FlaggedSum.facts (ty : Ty) (sum : ty.Word × Nzcv) (s : FlaggedSum) : List Fact :=
  [⟨s.result, ty, fun _ => ty.extend sum.1⟩, ⟨s.n, .i32, fun _ => Ty.i32.extend (flagWord sum.2.n)⟩,
    ⟨s.z, .i32, fun _ => Ty.i32.extend (flagWord sum.2.z)⟩,
    ⟨s.c, .i32, fun _ => Ty.i32.extend (flagWord sum.2.c)⟩,
    ⟨s.v, .i32, fun _ => Ty.i32.extend (flagWord sum.2.v)⟩]

instance runs_pure_sum {r n z c v : Value} {fr fn fz fc fv : Context → UInt64}
    [hr : Tells r ty fr known] [hn : Tells n .i32 fn known] [hz : Tells z .i32 fz known]
    [hc : Tells c .i32 fc known] [hv : Tells v .i32 fv known] :
    Runs host mode known (pure (FlaggedSum.mk r n z c v)) w w fun s => [⟨s.result, ty, fr⟩,
      ⟨s.n, .i32, fn⟩, ⟨s.z, .i32, fz⟩, ⟨s.c, .i32, fc⟩, ⟨s.v, .i32, fv⟩] :=
  runs_pure fun _ hknown => by
    simp only [List.forall_mem_cons]
    exact ⟨hknown _ hr.mem, hknown _ hn.mem, hknown _ hz.mem, hknown _ hc.mem, hknown _ hv.mem,
      fun _ h => by cases h⟩

/-- The carry is the bit `t`: a constant, or a value that holds it where the context is `c`. -/
class Carry (carry : CarryIn) (t : outParam Bool) (known : List Fact) (c : Context) : Prop where
  eq : carry = (if t then .one else .zero) ∨
    ∃ v f, carry = .value v ∧ Tells v .i32 f known ∧ f c = Ty.i32.extend (flagWord t)

section Sum

variable {carry : CarryIn} {t : Bool} {c : Context} {known' : List Fact}

instance carry_append [h : Carry carry t known' c] : Carry carry t (known ++ known') c :=
  ⟨h.eq.imp_right fun ⟨v, f, heq, _, hf⟩ => ⟨v, f, heq, inferInstance, hf⟩⟩

theorem cut_resized_flagWord : ty.cut (resized .i32 ty (Ty.i32.extend (flagWord t))) =
    BitVec.ofNat ty.bits t.toNat := by
  rw [resized_extend, Ty.cut_extend]
  cases ty <;> cases t <;> rfl

instance runs_addCarry {x y : UInt64} [hcarry : Carry carry t known (host.context w)]
    [ha : Tells a ty (fun _ => Instruction.add.pureValue ty ty x y 0) known] :
    Runs host mode known (addCarry a carry) w w fun v => [⟨v, ty, fun _ =>
      ty.extend (ty.cut x + ty.cut y + BitVec.ofNat ty.bits t.toNat)⟩] := by
  obtain rfl | ⟨v, f, rfl, hv, hf⟩ := hcarry.eq
  · cases t
    · change Runs host mode known (pure a) w w _
      refine Runs.congr inferInstance fun _ => ?_
      simp [IR.Wordwise.pureValue_eq, Instruction.onWords]
    · change Runs host mode known (binaryImm .add a 1) w w _
      refine Runs.congr inferInstance fun _ => ?_
      simp only [seen, IR.Wordwise.pureValue_eq, Instruction.onWords, Ty.cut_and_mask,
        Ty.cut_extend]
      cases ty <;> rfl
  · change Runs host mode known (resize v a.ty >>= binary .add a) w w _
    refine Runs.congr inferInstance fun _ => ?_
    simp only [seen, ite_self, hf, IR.Wordwise.pureValue_eq, Instruction.onWords, Ty.cut_extend,
      cut_resized_flagWord]

section

variable [hcarry : Carry carry t known (host.context w)] [ha : Tells a ty f known]

include hcarry ha

instance runs_carryOut [hb : Tells b ty' g known] :
    Runs host mode known (carryOut a b carry) w w fun v => [⟨v, .i32, fun _ =>
      Instruction.pureValue (.compare (if t then .ule else .ult)) .i32 ty (seen (host.context w) f)
        (seen (host.context w) g) 0⟩] := by
  obtain rfl | ⟨v, f, rfl, hv, hf⟩ := hcarry.eq
  · cases t
    · exact inferInstanceAs (Runs host mode known (compare .ult a b) w w _)
    · exact inferInstanceAs (Runs host mode known (compare .ule a b) w w _)
  · dsimp only [carryOut]
    refine Runs.congr inferInstance fun _ => ?_
    simp only [seen, hf, IR.pureValue_select, Comparison.pureValue_eq, Ty.cut_extend]
    cases t <;> rfl

instance runs_addWithCarry [hb : Tells b ty g known] :
    Runs host mode known (addWithCarry a b carry) w w (FlaggedSum.facts ty
      (Guest.addWithCarry (ty.cut (seen (host.context w) f))
        (ty.cut (seen (host.context w) g)) t)) := by
  dsimp only [addWithCarry]
  refine Runs.congr inferInstance fun s => ?_
  simp only [seen, IR.Wordwise.pureValue_eq, Instruction.onWords, Comparison.pureValue_eq,
    Ty.cut_and_mask, Ty.cut_extend, FlaggedSum.facts]
  generalize ty.cut (f (host.context w)) = x
  generalize ty.cut (g (host.context w)) = y
  have hsum : x + y + BitVec.ofNat ty.bits t.toNat = (Guest.addWithCarry x y t).1 := by
    apply BitVec.eq_of_toNat_eq
    simp [Guest.addWithCarry]
  have hzero : ty.cut 0 = 0 := by cases ty <;> rfl
  rw [Guest.carry_addWithCarry, Guest.overflow_addWithCarry _ _ _ Ty.bits_pos]
  simp only [hsum, hzero]
  cases t <;> rfl

instance runs_addOrSub [hb : Tells b ty g known] (sub : Bool) :
    Runs host mode known (addOrSub sub a b carry) w w (FlaggedSum.facts ty
      (Guest.addWithCarry (ty.cut (seen (host.context w) f))
        (if sub then ~~~ty.cut (seen (host.context w) g)
          else ty.cut (seen (host.context w) g)) t)) := by
  cases sub
  · exact inferInstanceAs (Runs host mode known (addWithCarry a b carry) w w _)
  · change Runs host mode known (unary .not b >>= fun notB => addWithCarry a notB carry) w w _
    refine Runs.congr inferInstance fun s => ?_
    simp only [seen, IR.Wordwise.pureValue_eq, Ty.cut_extend]
    rfl

end

/-- The code of a sum, or of a difference as the sum with a complement, changes nothing but the
results there are. It gives the sum in the width of the operands, with its sign, whether it is zero,
and whether the unbounded sums of the unsigned and of the signed numbers leave the width. For a
difference the carry says that there is no borrow. -/
theorem addOrSub_sets_flags (host : Host ω) (mode : Mode) (w : ω) (sub : Bool) (a b : Value)
    (carry : CarryIn) [Tells a ty f known] [Tells b ty g known]
    [Carry carry t known (host.context w)] (hknown : ∀ e ∈ known, e.Holds temps) :
    let built := addOrSub sub a b carry mode temps.length
    let x := ty.cut (f (host.context w))
    let y := ty.cut (g (host.context w))
    let y' := if sub then ~~~y else y
    let sum := x.toNat + y'.toNat + t.toNat
    let signed := x.toInt + y'.toInt + t.toNat
    let flags : Nzcv := ⟨decide (2 ^ (ty.bits - 1) ≤ sum % 2 ^ ty.bits), sum % 2 ^ ty.bits == 0,
      decide (2 ^ ty.bits ≤ sum), decide (signed < -2 ^ (ty.bits - 1) ∨ 2 ^ (ty.bits - 1) ≤ signed)⟩
    (∃ more, evalSteps host built.steps temps w = .on (temps ++ more) w ∧
      ∀ e ∈ built.value.facts ty (BitVec.ofNat ty.bits sum, flags), e.Holds (temps ++ more)) ∧
    (sub = true → flags.c = decide (y.toNat + (1 - t.toNat) ≤ x.toNat)) := by
  intro built x y y' sum signed flags
  have hsum : Guest.addWithCarry x y' t = (BitVec.ofNat ty.bits sum, flags) :=
    Prod.ext rfl (Guest.flags_addWithCarry x y' t Ty.bits_pos)
  have hrun : Runs host mode known (addOrSub sub a b carry) w w
    (FlaggedSum.facts ty (Guest.addWithCarry x y' t)) := inferInstance
  obtain ⟨more, hsteps, -, hfacts⟩ := hrun.runs temps hknown
  refine ⟨⟨more, hsteps, hsum ▸ hfacts⟩, ?_⟩
  rintro rfl
  have hnot : y'.toNat = 2 ^ ty.bits - 1 - y.toNat := BitVec.toNat_not
  have hcarry : t.toNat ≤ 1 := Bool.toNat_le t
  refine decide_eq_decide.mpr ?_
  omega

/-- `3 - 5`, with a borrow that a result says -/
theorem addOrSub_sets_flags_borrow :
    let host : Host Context := ⟨id, fun field v c => c.put field v, fun _ _ c => (0, c)⟩
    let built := subWithCarry (.const 3 .i32) (.const 5 .i32) (.value (.temp 0 .i32)) .a32 1
    ∃ more, evalSteps host built.steps [0] .zero = .on ([0] ++ more) .zero ∧
      ∀ e ∈ built.value.facts .i32 (0xfffffffd#32, ⟨true, false, false, false⟩),
        e.Holds ([0] ++ more) := by
  have hknown : ∀ e ∈ [(⟨.temp 0 .i32, .i32, fun _ => 0⟩ : Fact), ⟨.const 3 .i32, .i32, fun _ => 3⟩,
      ⟨.const 5 .i32, .i32, fun _ => 5⟩], e.Holds [0] := by
    simp only [List.forall_mem_cons]
    exact ⟨⟨rfl, fun _ _ => rfl⟩, ⟨rfl, fun _ _ => rfl⟩, ⟨rfl, fun _ _ => rfl⟩,
      fun _ h => by cases h⟩
  have hcarry : ∀ known c, Carry (.value (.temp 0 .i32)) false
      (⟨.temp 0 .i32, .i32, fun _ => 0⟩ :: known) c := fun _ _ =>
    ⟨.inr ⟨_, fun _ => 0, rfl, inferInstance, rfl⟩⟩
  intro host
  exact (addOrSub_sets_flags host .a32 Context.zero true (.const 3 .i32) (.const 5 .i32)
    (.value (.temp 0 .i32)) hknown).1

end Sum

/-! ### Guest state -/

instance runs_assign (r : IR.GuestReg) (ty' : Ty) [hv : Tells v ty f known] :
    Runs host mode known (add (.assign r ty' v)) w
      (host.put (.register r) (seen (host.context w) f) w) fun _ => [] where
  runs temps hknown := by
    refine ⟨[], ?_, by simp [add], fun _ h => by cases h⟩
    simp [add, evalSteps, Step.eval, hv.eval_eq hknown]

instance runs_setFlag (fl : Flag) [hv : Tells v ty f known] :
    Runs host mode known (setFlag fl v) w
      (host.put (.register (.flag fl)) (seen (host.context w) f) w) fun _ => [] := by
  dsimp only [setFlag]
  infer_instance

instance runs_writeGpr (n : Nat) [hv : Tells v ty f known] :
    Runs host mode known (writeGpr n v) w (host.put (.register (.gpr n))
      (resized ty (gprType mode) (seen (host.context w) f)) w) fun _ => [] := by
  have hrun : Runs host mode known (do
    let reg ← gpr n
    let u ← resize v reg.ty
    add (.assign (.gpr n) reg.ty u)) w _ fun _ => [] := inferInstance
  simpa only [writeGpr, seen, ite_self] using hrun

instance ends_add_dispatch [hv : Tells v ty f known] :
    Ends host mode known (add (.dispatch v)) w (.dispatch (seen (host.context w) f)) w where
  ends temps hknown := by simp [add, evalSteps, Step.eval, hv.eval_eq hknown]

instance ends_dispatch [hv : Tells v ty f known] : Ends host mode known (dispatch v) w
    (.dispatch (resized ty .i64 (seen (host.context w) f))) w := by
  have hends : Ends host mode known (do
    let target ← resize v .i64
    add (.dispatch target)) w _ w := inferInstance
  simpa only [dispatch, seen, ite_self] using hends

/-! ### Conditions -/

/-- The flag that a condition is about, if it holds just when the flag is set. -/
def condFlag? : Cond → Option Flag
  | .eq => some .z
  | .cs => some .c
  | .mi => some .n
  | .vs => some .v
  | _ => none

/-- A condition on a single flag is the register of the flag itself; others are computed. -/
theorem runs_condition (host : Host ω) (mode : Mode) (cond : Cond) (w : ω) :
    ∃ f, (∀ known, Runs host mode known (condition cond) w w fun v => [⟨v, .i32, f⟩]) ∧
      ∀ c, (if (condFlag? cond).isSome then c else host.context w).FlagsNormal →
        f c = Ty.i32.extend (flagWord
          ((if (condFlag? cond).isSome then c else host.context w).flags.holds cond)) := by
  cases cond <;> dsimp only [condition] <;> refine ⟨_, fun _ => inferInstance, fun c hc => ?_⟩ <;>
    simp only [condFlag?, Option.isSome, if_true, seen, Bool.false_eq_true, if_false] at hc ⊢ <;>
    simp only [hc.flag_eq, Nzcv.get, Nzcv.holds] <;>
    generalize Context.flags _ = flags <;> obtain ⟨n, z, c, v⟩ := flags <;>
    cases n <;> cases z <;> cases c <;> cases v <;> rfl

/-! ### Functions of single instructions -/

def contextHost (answer : IR.Request → Context → UInt64 × Context) : Host Context where
  context := id
  put field value c := c.put field value
  answer _ := answer

/-- The function of the instruction leaves in this way with this context, however it is compiled, if
the count of calls is not part of the context. -/
def Executes (mode : Mode) (op : Guest.Opcode) (c : Context) (how : Leave) (c' : Context) : Prop :=
  ∀ answer options reason, evalEntry (contextHost answer) options op.address c = c →
    ∃ n, (function ⟨op.address, [op], reason⟩ mode options).program.run (contextHost answer) c n =
      .left how c'

theorem run_left {p : IR.Program} {n : Nat} (h : p.run host w n = .left how w') (k : Nat) :
    p.run host w (n + k) = .left how w' := by
  induction k with
  | zero => exact h
  | succ k ih => exact congrArg (p.advance host (n + k)) ih

section Executes

variable {op : Guest.Opcode} {c c' c₁ c₂ : Context} {how? : Option Leave}

/-- An instruction does one thing. -/
theorem Executes.unique {how₁ how₂ : Leave} (h₁ : Executes mode op c how₁ c₁)
    (h₂ : Executes mode op c how₂ c₂) : how₁ = how₂ ∧ c₁ = c₂ := by
  obtain ⟨n₁, hrun₁⟩ := h₁ (fun _ c => (0, c)) ⟨.optimized, 0, 0⟩ .controlFlow rfl
  obtain ⟨n₂, hrun₂⟩ := h₂ (fun _ c => (0, c)) ⟨.optimized, 0, 0⟩ .controlFlow rfl
  have heq := run_left hrun₁ n₂
  rw [Nat.add_comm, run_left hrun₂ n₁] at heq
  cases heq
  exact ⟨rfl, rfl⟩

def Progress.outcome : Progress ω → Option Leave × ω
  | on _ w => (none, w)
  | left how w => (some how, w)

theorem executes_of_outcome (hop : (code mode op).Proper mode op.address)
    (h : ∀ answer, ((code mode op).eval (contextHost answer) c).outcome = (how?, c')) :
    Executes mode op c (how?.getD (.dispatch op.next)) c' := by
  intro answer options reason hentry
  have hblind : (contextHost answer).SiteBlind := fun _ _ _ _ => rfl
  have hops : ∀ o ∈ (⟨op.address, [op], reason⟩ : Guest.Block).opcodes,
      (code mode o).Proper mode o.address := by
    simpa using hop
  obtain ⟨n, hn⟩ := run_function hblind hops options c
  refine ⟨n, hn.trans ?_⟩
  simp only [evalBlock, hentry, List.map_cons, evalCodes]
  have hout := h answer
  cases heval : (code mode op).eval (contextHost answer) c with
  | on temps w =>
    rw [heval] at hout
    obtain ⟨rfl, rfl⟩ := Prod.mk.inj hout
    rfl
  | left how w =>
    rw [heval] at hout
    obtain ⟨rfl, rfl⟩ := Prod.mk.inj hout
    rfl

def Outcome (mode : Mode) (x : Build Unit) (c : Context) (how? : Option Leave) (c' : Context) :
    Prop :=
  ∀ answer, (evalSteps (contextHost answer) (x mode 0).steps [] c).outcome = (how?, c')

theorem outcome_of_runs {x : Build Unit}
    (h : ∀ answer, Runs (contextHost answer) mode [] x c c' fun _ => []) :
    Outcome mode x c none c' := by
  intro answer
  obtain ⟨more, hsteps, -⟩ := (h answer).runs [] fun _ he => by cases he
  rw [show evalSteps _ (x mode 0).steps [] c = _ from hsteps]
  rfl

theorem outcome_of_ends {x : Build Unit}
    (h : ∀ answer, Ends (contextHost answer) mode [] x c how c') :
    Outcome mode x c (some how) c' := by
  intro answer
  rw [show evalSteps _ (x mode 0).steps [] c = _ from (h answer).ends [] fun _ he => by cases he]
  rfl

theorem A64.executes {instr : Guest.A64.Instr} (hop : op.instr = .a64 instr)
    (h : Outcome .a64 (lift op instr) c how? c') :
    Executes .a64 op c (how?.getD (.dispatch op.next)) c' := by
  have hcode : code .a64 op = Build.code .a64 (lift op instr) := by rw [code, hop]
  refine executes_of_outcome (hcode ▸ (proper_lift op instr).code) fun answer => ?_
  rw [hcode]
  exact h answer

/-- A condition decides between the code that it guards and nothing. -/
theorem outcome_conditional (host : Host ω) (mode : Mode) (cond : Cond) (x : Build Unit) {w : ω}
    (hw : cond.isAlways = true ∨ (host.context w).FlagsNormal) :
    ((conditional mode cond x).eval host w).outcome =
      if (host.context w).flags.holds cond then (evalSteps host (x mode 0).steps [] w).outcome
      else (none, w) := by
  rw [conditional]
  split
  next halways =>
    have hholds : (host.context w).flags.holds cond = true := by
      cases cond <;> first | rfl | cases halways
    rw [if_pos hholds]
    rfl
  next hsome =>
    obtain ⟨f, hrun, hf⟩ := runs_condition host mode cond w
    obtain ⟨more, hsteps, -, hout⟩ := (hrun []).runs [] fun _ he => by cases he
    have htaken : (condition cond mode 0).value.eval (host.context w) more &&&
        (condition cond mode 0).value.ty.mask ≠ 0 ↔ (host.context w).flags.holds cond = true := by
      obtain ⟨hty, heval⟩ := hout _ (.head _)
      have hvalue : (condition cond mode 0).value.eval (host.context w) more =
          f (host.context w) := by simpa using heval [] (host.context w)
      have hword := hf (host.context w)
      simp only [ite_self] at hword
      rw [hvalue, show (condition cond mode 0).value.ty = .i32 from hty,
        hword (hw.resolve_left hsome), Ty.extend_and_mask]
      cases (host.context w).flags.holds cond <;> decide
    have hcond : evalSteps host (condition cond mode 0).steps [] w = .on more w := hsteps
    simp only [Code.eval, hcond]
    by_cases hholds : (host.context w).flags.holds cond = true
    · rw [if_pos (htaken.mpr hholds), if_pos hholds]
    · rw [if_neg fun ht => hholds (htaken.mp ht), if_neg hholds]
      rfl

/-- An instruction of A32 whose condition does not hold does nothing. -/
theorem A32.executes {cond : Cond} {o : Guest.A32.Op} (hop : op.instr = .a32 ⟨cond, o⟩)
    (hc : cond.isAlways = true ∨ c.FlagsNormal) (h : Outcome .a32 (lift op o) c how? c') :
    Executes .a32 op c (if c.flags.holds cond then how?.getD (.dispatch op.next)
      else .dispatch op.next) (if c.flags.holds cond then c' else c) := by
  have hcode : Lift.code .a32 op = conditional .a32 cond (lift op o) := by
    rw [Lift.code, hop]
    rfl
  have hexecutes : Executes .a32 op c ((if c.flags.holds cond then how? else none).getD
      (.dispatch op.next)) (if c.flags.holds cond then c' else c) := by
    refine executes_of_outcome (hcode ▸ proper_code op ⟨cond, o⟩) fun answer => ?_
    rw [hcode, outcome_conditional _ _ _ _ hc, show (evalSteps _ _ [] c).outcome = _ from h answer]
    cases hholds : c.flags.holds cond
    · exact if_neg (Bool.eq_false_iff.mp hholds)
    · exact if_pos hholds
  rwa [apply_ite (Option.getD · _)] at hexecutes

end Executes

end Dynarec.Lift
