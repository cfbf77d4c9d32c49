import Dynarec.Proofs.IR.Meaning

/-!
# Registers in the context

Every guest register has a field of the context to itself. A host is blind to registers if, apart
from the calls that synchronize, its answers do not depend on the register fields and leave them
alone; then two worlds that differ in the registers only stay close to each other.
-/

namespace Dynarec

open IR (Field GuestReg)

namespace IR

def GuestReg.Valid : GuestReg → Prop
  | gpr n => n < 32
  | flag _ => True

instance (r : GuestReg) : Decidable r.Valid := by
  cases r <;> unfold GuestReg.Valid <;> infer_instance

def GuestReg.width : GuestReg → UInt64
  | gpr _ => Ty.i64.mask
  | flag _ => Ty.i32.mask

theorem Ty.mask_and_mask (ty : Ty) (v : UInt64) : v &&& ty.mask &&& ty.mask = v &&& ty.mask := by
  rw [UInt64.and_assoc, UInt64.and_self]

@[simp] theorem Ty.and_i64_mask (v : UInt64) : v &&& Ty.i64.mask = v := UInt64.and_neg_one

end IR

namespace Context

variable (c : Context) (v : UInt64)

theorem get_put_self (r : GuestReg) :
    (c.put (.register r) v).get (.register r) = v &&& r.width := by
  cases r with
  | gpr n => simp [put, get, setGpr, gpr, GuestReg.width]
  | flag f =>
    simp only [put, get, setFlag, flag]
    apply UInt64.toNat_inj.mp
    simpa [GuestReg.width, IR.Ty.mask] using (Nat.and_two_pow_sub_one_eq_mod v.toNat 32).symm

theorem get_put_of_ne {r s : GuestReg} (hr : r.Valid) (hs : s.Valid) (hne : r ≠ s) :
    (c.put (.register r) v).get (.register s) = c.get (.register s) := by
  cases r with
  | gpr n =>
    cases s with
    | gpr m =>
      have hnm : n % 32 ≠ m % 32 := by
        rw [Nat.mod_eq_of_lt hr, Nat.mod_eq_of_lt hs]
        exact fun h => hne (congrArg GuestReg.gpr h)
      simp [put, get, setGpr, gpr, slot, Vector.getElem_set_ne _ _ hnm]
    | flag f => rfl
  | flag f =>
    cases s with
    | gpr m => rfl
    | flag g =>
      have hfg : (f.index : Nat) ≠ g.index := by
        intro h
        apply hne
        cases f <;> cases g <;> first | rfl | cases h
      simp [put, get, setFlag, flag, Vector.getElem_set_ne _ _ hfg]

/-- The registers of two contexts agree in the bits of a mask. -/
def Agree (mask : GuestReg → UInt64) (c d : Context) : Prop :=
  ∀ r : GuestReg, r.Valid → c.get (.register r) &&& mask r = d.get (.register r) &&& mask r

end Context

namespace IR

variable {ω : Type}

/-- The host neither sees nor changes registers, but for the calls that synchronize, and these see
the bits of the mask only. Worlds that differ in the registers only are close. -/
structure Host.RegisterBlind (host : Host ω) (mask : GuestReg → UInt64) (Close : ω → ω → Prop) :
    Prop where
  context_put : ∀ field v w, host.context (host.put field v w) = (host.context w).put field v
  put_left : ∀ {w w'} (r v), Close w w' → Close (host.put (.register r) v w) w'
  put_right : ∀ {w w'} (r v), Close w w' → Close w (host.put (.register r) v w')
  put : ∀ {w w' field} (v), Close w w' → (∀ r, field ≠ .register r) →
    Close (host.put field v w) (host.put field v w')
  get : ∀ {w w' field}, Close w w' → (∀ r, field ≠ .register r) →
    (host.context w).get field = (host.context w').get field
  answer : ∀ {w w' request} (site), Close w w' → request.synchronizes = false →
    (host.answer site request w).1 = (host.answer site request w').1 ∧
      Close (host.answer site request w).2 (host.answer site request w').2
  keeps : ∀ {request} (site w r), request.synchronizes = false →
    (host.context (host.answer site request w).2).get (.register r) =
      (host.context w).get (.register r)
  call : ∀ {w w'} (site request), Close w w' → request.synchronizes = true →
    (host.context w).Agree mask (host.context w') →
    Close (host.answer site request w).2 (host.answer site request w').2 ∧
      (host.context (host.answer site request w).2).Agree mask
        (host.context (host.answer site request w').2)

/-! ### One instruction -/

section Perform

variable {ω : Type} {host : Host ω} {site : Site} {inst : Instruction} {ty sourceTy : Ty}
  {a b c : UInt64} {v : UInt64} {w : ω} {mask : GuestReg → UInt64} {Close : ω → ω → Prop}

theorem Instruction.synchronizes_request {request : Request}
    (h : inst.request? a b c = some request) :
    request.synchronizes = inst.synchronizesContext := by
  cases inst <;> first | cases h; rfl | cases h

theorem Instruction.evaluate?_fits {args : List UInt64}
    (h : inst.evaluate? ty sourceTy args = some v) : v &&& ty.mask = v := by
  obtain ⟨u, -, rfl⟩ := Option.map_eq_some_iff.mp h
  exact Ty.mask_and_mask ty u

theorem Instruction.pureValue_fits (h : inst ≠ .copy) :
    inst.pureValue ty sourceTy a b c &&& ty.mask = inst.pureValue ty sourceTy a b c := by
  have hget : ∀ args, (inst.evaluate? ty sourceTy args).getD 0 &&& ty.mask =
      (inst.evaluate? ty sourceTy args).getD 0 := by
    intro args
    cases hv : inst.evaluate? ty sourceTy args with
    | none => exact UInt64.zero_and
    | some v => exact evaluate?_fits hv
  unfold Instruction.pureValue
  split
  · exact absurd rfl h
  · exact hget _

/-- The result of an instruction has its type, unless it is a copy of something that has not. -/
theorem Host.perform_fits (h : (host.perform site inst ty sourceTy a b c w).1 = some v)
    (hcopy : inst = .copy → a &&& ty.mask = a) : v &&& ty.mask = v := by
  unfold Host.perform at h
  split at h
  next request hreq =>
    simp only at h
    split at h
    · cases h
      exact Ty.mask_and_mask _ _
    · cases h
  next hreq =>
    split at h
    · cases h
      exact Ty.mask_and_mask _ _
    · cases h
    · cases h
      by_cases hinst : inst = .copy
      · subst hinst
        exact hcopy rfl
      · exact Instruction.pureValue_fits hinst

/-- The calls that synchronize have no result. -/
theorem Host.perform_sync (host : Host ω) (h : inst.synchronizesContext = true) :
    ∃ kind, ∀ site ty sourceTy a b c w, host.perform site inst ty sourceTy a b c w =
      (none, (host.answer site (.call kind a b.toUInt32) w).2) := by
  cases inst with
  | supervisorCall => exact ⟨.supervisor, fun _ _ _ _ _ _ _ => rfl⟩
  | breakpoint => exact ⟨.breakpoint, fun _ _ _ _ _ _ _ => rfl⟩
  | undefined => exact ⟨.undefined, fun _ _ _ _ _ _ _ => rfl⟩
  | _ => cases h

/-- An instruction that neither synchronizes nor stores to a register leaves the registers alone. -/
theorem Host.RegisterBlind.perform_keeps (hb : host.RegisterBlind mask Close)
    (hsync : inst.synchronizesContext = false) (hstore : ∀ r, inst ≠ .storeContext (.register r))
    (site : Site) (ty sourceTy : Ty) (a b c : UInt64) (w : ω) (r : GuestReg) :
    (host.context (host.perform site inst ty sourceTy a b c w).2).get (.register r) =
      (host.context w).get (.register r) := by
  unfold Host.perform
  split
  next request hreq =>
    exact hb.keeps site w r ((Instruction.synchronizes_request hreq).trans hsync)
  next hreq =>
    split
    · rfl
    next _ field =>
      rw [hb.context_put]
      cases field with
      | register s => exact absurd rfl (hstore s)
      | _ => cases r <;> rfl
    · rfl

/-- In close worlds it has the same result and leaves close worlds behind. -/
theorem Host.RegisterBlind.perform_close (hb : host.RegisterBlind mask Close)
    (hsync : inst.synchronizesContext = false) (hload : ∀ r, inst ≠ .loadContext (.register r))
    (hstore : ∀ r, inst ≠ .storeContext (.register r)) {w' : ω} (hclose : Close w w')
    (site : Site) (ty sourceTy : Ty) (a b c : UInt64) :
    (host.perform site inst ty sourceTy a b c w).1 =
        (host.perform site inst ty sourceTy a b c w').1 ∧
      Close (host.perform site inst ty sourceTy a b c w).2
        (host.perform site inst ty sourceTy a b c w').2 := by
  unfold Host.perform
  split
  next request hreq =>
    obtain ⟨hvalue, hworld⟩ := hb.answer site hclose
      ((Instruction.synchronizes_request hreq).trans hsync)
    refine ⟨?_, hworld⟩
    simp only [hvalue]
  next hreq =>
    split
    next field _ =>
      refine ⟨?_, hclose⟩
      rw [hb.get hclose fun s hs => hload s (hs ▸ rfl)]
    next field _ => exact ⟨rfl, hb.put a hclose fun s hs => hstore s (hs ▸ rfl)⟩
    · exact ⟨rfl, hclose⟩

end Perform

/-! ### Environments -/

end IR

namespace Context

open IR (Ty)

/-- The context with the registers cut to the bits of their types. Flags have no bits to lose. -/
def narrow (tys : GuestReg → Ty) (c : Context) : Context :=
  { c with x := Vector.ofFn fun i => c.x.get i &&& (tys (.gpr i)).mask }

theorem flag_and_mask (c : Context) (f : Guest.Flag) (ty : Ty) :
    c.get (.register (.flag f)) &&& ty.mask = c.get (.register (.flag f)) := by
  cases ty with
  | i64 => exact Ty.and_i64_mask _
  | i32 =>
    apply UInt64.toNat_inj.mp
    have hand := Nat.and_two_pow_sub_one_eq_mod (c.flag f).toNat 32
    simpa [get, Ty.mask] using hand

/-- Contexts that agree in the registers, and in all else, are the same in those bits. -/
theorem narrow_eq {tys : GuestReg → Ty} {c d : Context}
    (hrest : c.withRegisters zero = d.withRegisters zero)
    (hagree : c.Agree (fun r => (tys r).mask) d) : c.narrow tys = d.narrow tys := by
  have hx : (c.narrow tys).x = (d.narrow tys).x := by
    refine Vector.ext fun i hi => ?_
    have hreg := hagree (.gpr i) hi
    simpa [narrow, get, gpr, slot, Nat.mod_eq_of_lt hi, Vector.get] using hreg
  have hflag : ∀ f : Guest.Flag, c.flag f = d.flag f := by
    intro f
    have hreg := hagree (.flag f) trivial
    rw [flag_and_mask, flag_and_mask] at hreg
    exact UInt32.toUInt64_inj.mp hreg
  have hnzcv : c.nzcv = d.nzcv := by
    refine Vector.ext fun i hi => ?_
    match i, hi with
    | 0, _ => exact hflag .n
    | 1, _ => exact hflag .z
    | 2, _ => exact hflag .c
    | 3, _ => exact hflag .v
  simp only [withRegisters, mk.injEq] at hrest
  simp only [narrow, mk.injEq] at hx hnzcv ⊢
  exact ⟨hx, hrest.2.1, hnzcv, hrest.2.2.2⟩

theorem withRegisters_put_register (c d : Context) (r : GuestReg) (v : UInt64) :
    (c.put (.register r) v).withRegisters d = c.withRegisters d := by
  cases r <;> rfl

section Other

variable {field : Field} (hfield : ∀ r, field ≠ .register r) (c d : Context)

include hfield

theorem withRegisters_put (v : UInt64) :
    (c.put field v).withRegisters d = (c.withRegisters d).put field v := by
  cases field with
  | register r => exact absurd rfl (hfield r)
  | _ => rfl

theorem get_withRegisters_other : (c.withRegisters d).get field = c.get field := by
  cases field with
  | register r => exact absurd rfl (hfield r)
  | _ => rfl

end Other

end Context

namespace IR

/-- What an environment sees of an event: registers only at the calls that synchronize, and these
in the bits of their types. -/
def Event.visible (tys : GuestReg → Ty) : Event → Option Event
  | put (.register _) _ => none
  | put field v => some (put field v)
  | request q c => some (request q (if q.synchronizes then c.narrow tys else c.withRegisters .zero))

/-- The same was seen, and the contexts differ in the registers only. -/
structure Trace.Close (tys : GuestReg → Ty) (w w' : Trace) : Prop where
  events : w.events.filterMap (Event.visible tys) = w'.events.filterMap (Event.visible tys)
  context : w.context.withRegisters .zero = w'.context.withRegisters .zero

theorem Environment.registerBlind (E : Environment) (tys : GuestReg → Ty) :
    (E.host (Event.visible tys)).RegisterBlind (fun r => (tys r).mask) (Trace.Close tys) where
  context_put _ _ _ := rfl
  put_left r v h := ⟨h.events, (Context.withRegisters_put_register _ _ r v).trans h.context⟩
  put_right r v h := ⟨h.events, h.context.trans (Context.withRegisters_put_register _ _ r v).symm⟩
  put {w w' field} v h hfield := by
    constructor
    · cases field with
      | register r => exact absurd rfl (hfield r)
      | _ => exact congrArg (List.cons _) h.events
    · change (w.context.put field v).withRegisters .zero =
        (w'.context.put field v).withRegisters .zero
      rw [Context.withRegisters_put hfield, Context.withRegisters_put hfield, h.context]
  get {w w' field} h hfield := by
    change w.context.get field = w'.context.get field
    rw [← Context.get_withRegisters_other hfield w.context .zero, h.context,
      Context.get_withRegisters_other hfield]
  answer {w w' q} site h hq := by
    have hseen : (Event.request q w.context :: w.events).filterMap (Event.visible tys) =
        (Event.request q w'.context :: w'.events).filterMap (Event.visible tys) := by
      simp only [List.filterMap_cons, Event.visible, hq, h.events, h.context, Bool.false_eq_true,
        if_false]
    refine ⟨?_, hseen, ?_⟩
    · simp only [host, hseen]
    · simp only [host, hseen, Request.allow, hq, Bool.false_eq_true, if_false]
      split
      · exact h.context
      · rfl
  keeps {q} site w r hq := by
    simp only [host, Request.allow, hq, Bool.false_eq_true, if_false]
    split
    · rfl
    · cases r <;> rfl
  call {w w'} site q h hq hagree := by
    have hseen : (Event.request q w.context :: w.events).filterMap (Event.visible tys) =
        (Event.request q w'.context :: w'.events).filterMap (Event.visible tys) := by
      simp only [List.filterMap_cons, Event.visible, hq, h.events, if_true,
        Context.narrow_eq h.context hagree]
    refine ⟨⟨hseen, ?_⟩, ?_⟩
    · simp only [host, hseen, Request.allow, hq, if_true]
    · simp only [host, hseen, Request.allow, hq]
      exact fun r _ => rfl

def Function.registerTy (f : Function) (r : GuestReg) : Ty :=
  match f.registers.lookup r with
  | some o => (f.operand o).ty
  | none => .i64

theorem Function.WellFormed.registerTy {f : Function} (h : f.WellFormed) {r : GuestReg}
    {o : OperandId} (hmem : (r, o) ∈ f.registers) : f.registerTy r = f.program.ty o := by
  rw [Function.registerTy, lookup_of_mem h.interned.nodup_registers hmem]
  rfl

/-- Two runs are at the same block, or have left in the same way, and showed the same. -/
inductive SameOutcome (tys : GuestReg → Ty) : Outcome Trace → Outcome Trace → Prop
  | running {pred : Option BlockId} {b : BlockId} {σ σ' : State Trace}
      (hseen : σ.world.events.filterMap (Event.visible tys) =
        σ'.world.events.filterMap (Event.visible tys)) :
      SameOutcome tys (.running pred b σ) (.running pred b σ')
  | left {how : Leave} {w w' : Trace}
      (hseen : w.events.filterMap (Event.visible tys) = w'.events.filterMap (Event.visible tys))
      (hcontext : w.context.narrow tys = w'.context.narrow tys) :
      SameOutcome tys (.left how w) (.left how w')

end IR

end Dynarec
