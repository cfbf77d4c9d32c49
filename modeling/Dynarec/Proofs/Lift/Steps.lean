import Dynarec.Lift.Builder
import Dynarec.Proofs.IR.Versions

/-!
# Proper code

The code of an instruction has two parts. In the first it reads the guest state and accesses memory,
and after each access it checks whether the guest was stopped; in the second it writes the guest
state and accesses no memory. All values that a step uses exist at that point and have the types
that the step asks for.
-/

namespace Dynarec.Lift

open Guest (AccessSize Mode)
open IR (Field GuestReg Instruction Ty)

variable {v : Value} {inst : Instruction} {steps : List Step}

def registerTy (mode : Mode) : GuestReg → Ty
  | .gpr _ => gprType mode
  | .flag _ => .i32

theorem registerTy_width (mode : Mode) (r : GuestReg) :
    (registerTy mode r).mask &&& r.width = (registerTy mode r).mask := by
  cases r <;> cases mode <;> simp only [registerTy, GuestReg.width] <;> decide

/-- The value exists where there are results of these types. -/
def Value.Known (mode : Mode) (types : List Ty) : Value → Prop
  | const _ _ => True
  | reg r ty => r.Valid ∧ ty = registerTy mode r
  | temp i ty => types[i]? = some ty

structure Value.Has (mode : Mode) (types : List Ty) (v : Value) (ty : Ty) : Prop where
  known : v.Known mode types
  ty_eq : v.ty = ty

theorem Value.Known.mono {mode : Mode} {types types' : List Ty} (h : v.Known mode types)
    (hle : types <+: types') : v.Known mode types' := by
  cases v with
  | const _ _ => trivial
  | reg _ _ => exact h
  | temp i ty =>
    obtain ⟨more, rfl⟩ := hle
    have hi : types[i]? = some ty := h
    have hlt : i < types.length := (List.getElem?_eq_some_iff.mp hi).1
    exact (List.getElem?_append_left hlt).trans hi

theorem Value.Has.mono {mode : Mode} {types types' : List Ty} {ty : Ty} (h : v.Has mode types ty)
    (hle : types <+: types') : v.Has mode types' ty :=
  ⟨h.known.mono hle, h.ty_eq⟩

def sourceTy (sources : List Value) : Ty := (sources.head?.map Value.ty).getD .i64

def isComputation : Instruction → Bool
  | .copy | .load _ | .loadContext (.register _) => false
  | inst => inst.hasValue

theorem hasValue_of_isComputation (h : isComputation inst = true) :
    inst.hasValue = true ∧ inst ≠ .copy ∧ ∀ r, inst ≠ .loadContext (.register r) := by
  refine ⟨?_, ?_, ?_⟩
  · cases inst with
    | loadContext field => cases field <;> rfl
    | _ => first | exact h | cases h
  · rintro rfl
    cases h
  · rintro r rfl
    cases h

/-- Instructions that change the guest state other than memory, or may let the host do so. -/
@[reducible] def isUpdate : Instruction → Bool
  | .storeContext (.register _) => false
  | .storeContext _ | .supervisorCall | .breakpoint | .undefined | .invalidateCacheLine
  | .countCall => true
  | _ => false

theorem not_phi_of_isUpdate (h : isUpdate inst = true) :
    inst.isTerminator = false ∧ inst ≠ .phi ∧ (∀ r, inst ≠ .loadContext (.register r)) ∧
      (∀ r, inst ≠ .storeContext (.register r)) ∧ ∀ cmp, inst ≠ .compare cmp := by
  refine ⟨?_, ?_, ?_, ?_, ?_⟩
  · cases inst <;> first | rfl | cases h
  all_goals
    intros
    rintro rfl
    cases h

inductive Part where
  | access
  | update

/-- Steps of one part, which take results of some types to more results. -/
inductive Proper (mode : Mode) (pc : UInt64) : Part → List Ty → List Step → List Ty → Prop
  | nil {part types} : Proper mode pc part types [] types
  | mention {part types types' rest v} (hv : v.Known mode types)
      (hrest : Proper mode pc part types rest types') :
      Proper mode pc part types (.mention v :: rest) types'
  | compute {part types types' rest inst ty sources} (hinst : isComputation inst = true)
      (hlength : sources.length ≤ 3) (hsources : ∀ v ∈ sources, v.Known mode types)
      (hcompare : ∀ cmp, inst = .compare cmp → ∀ v ∈ sources, v.ty = sourceTy sources)
      (hrest : Proper mode pc part (types ++ [ty]) rest types') :
      Proper mode pc part types (.compute inst ty sources :: rest) types'
  | load {types types' rest size ty address} (haddress : address.Known mode types)
      (hrest : Proper mode pc .access (types ++ [ty]) rest types') :
      Proper mode pc .access types (.compute (.load size) ty [address] :: .haltCheck pc :: rest)
        types'
  | store {types types' rest size address value} (haddress : address.Known mode types)
      (hvalue : value.Known mode types) (hrest : Proper mode pc .access types rest types') :
      Proper mode pc .access types
        (.perform (.store size) [address, value] :: .haltCheck pc :: rest) types'
  | assign {types types' rest r v} (hr : r.Valid) (hv : v.Has mode types (registerTy mode r))
      (hrest : Proper mode pc .update types rest types') :
      Proper mode pc .update types (.assign r (registerTy mode r) v :: rest) types'
  | perform {types types' rest inst sources} (hinst : isUpdate inst = true)
      (hlength : sources.length ≤ 3) (hsources : ∀ v ∈ sources, v.Known mode types)
      (hrest : Proper mode pc .update types rest types') :
      Proper mode pc .update types (.perform inst sources :: rest) types'
  | haltCheck {types types' rest} (resume : UInt64)
      (hrest : Proper mode pc .update types rest types') :
      Proper mode pc .update types (.haltCheck resume :: rest) types'
  | dispatch {types types' rest v} (hv : v.Known mode types)
      (hrest : Proper mode pc .update types rest types') :
      Proper mode pc .update types (.dispatch v :: rest) types'
  | branchOn {types types' rest v} (hv : v.Known mode types) (target next : UInt64)
      (hrest : Proper mode pc .update types rest types') :
      Proper mode pc .update types (.branchOn v target next :: rest) types'

variable {mode : Mode} {pc : UInt64} {part : Part} {types types' types'' : List Ty}

theorem Proper.isPrefix (h : Proper mode pc part types steps types') : types <+: types' := by
  induction h with
  | nil => exact List.prefix_rfl
  | compute _ _ _ _ _ ih => exact List.IsPrefix.trans (List.prefix_append _ _) ih
  | load _ _ ih => exact List.IsPrefix.trans (List.prefix_append _ _) ih
  | mention _ _ ih => exact ih
  | store _ _ _ ih => exact ih
  | assign _ _ _ ih => exact ih
  | perform _ _ _ _ ih => exact ih
  | haltCheck _ _ ih => exact ih
  | dispatch _ _ ih => exact ih
  | branchOn _ _ _ _ ih => exact ih

theorem Proper.append {first second : List Step} (h : Proper mode pc part types first types')
    (h' : Proper mode pc part types' second types'') :
    Proper mode pc part types (first ++ second) types'' := by
  induction h with
  | nil => exact h'
  | mention hv _ ih => exact .mention hv (ih h')
  | compute hinst hlength hsources hcompare _ ih =>
    exact .compute hinst hlength hsources hcompare (ih h')
  | load haddress _ ih => exact .load haddress (ih h')
  | store haddress hvalue _ ih => exact .store haddress hvalue (ih h')
  | assign hr hv _ ih => exact .assign hr hv (ih h')
  | perform hinst hlength hsources _ ih => exact .perform hinst hlength hsources (ih h')
  | haltCheck resume _ ih => exact .haltCheck resume (ih h')
  | dispatch hv _ ih => exact .dispatch hv (ih h')
  | branchOn hv target next _ ih => exact .branchOn hv target next (ih h')

/-- Steps of the first part do not end the instruction. -/
theorem Proper.not_final (h : Proper mode pc .access types steps types') :
    ∀ s ∈ steps, s.isFinal = false := by
  generalize hpart : Part.access = part at h
  induction h with
  | nil => simp
  | mention _ _ ih => exact List.forall_mem_cons.mpr ⟨rfl, ih hpart⟩
  | compute _ _ _ _ _ ih => exact List.forall_mem_cons.mpr ⟨rfl, ih hpart⟩
  | load _ _ ih =>
    exact List.forall_mem_cons.mpr ⟨rfl, List.forall_mem_cons.mpr ⟨rfl, ih hpart⟩⟩
  | store _ _ _ ih =>
    exact List.forall_mem_cons.mpr ⟨rfl, List.forall_mem_cons.mpr ⟨rfl, ih hpart⟩⟩
  | _ => cases hpart

/-- Steps of the first part, followed by steps of the second. -/
def ProperBody (mode : Mode) (pc : UInt64) (types : List Ty) (steps : List Step) : Prop :=
  ∃ first second types' types'', steps = first ++ second ∧
    Proper mode pc .access types first types' ∧ Proper mode pc .update types' second types''

/-- Proper code; a condition belongs to the first part. -/
structure Code.Proper (mode : Mode) (pc : UInt64) (c : Code) : Prop where
  body : ProperBody mode pc [] c.body
  guard : ∀ steps taken, c.guard = some (steps, taken) →
    mode = .a32 ∧ ∃ types, Lift.Proper mode pc .access [] steps types ∧ taken.Known mode types

/-! ### Code under construction -/

def Knows (mode : Mode) (types : List Ty) (known : List (Value × Ty)) : Prop :=
  ∀ e ∈ known, e.1.Has mode types e.2

theorem Knows.mono {known : List (Value × Ty)} (h : Knows mode types known)
    (hle : types <+: types') : Knows mode types' known :=
  fun e he => (h e he).mono hle

theorem Knows.append {known known' : List (Value × Ty)} (h : Knows mode types known)
    (h' : Knows mode types known') : Knows mode types (known ++ known') :=
  fun e he => (List.mem_append.mp he).elim (h e) (h' e)

theorem knows_one {ty : Ty} (h : v.Has mode types ty) : Knows mode types [(v, ty)] := by
  simpa [Knows] using h

/-- Where the known values exist, the code adds steps of one part. After them the values exist that
`out` gives. -/
class Emits {α : Type} (mode : Mode) (pc : UInt64) (part : Part) (known : List (Value × Ty))
    (x : Build α) (out : outParam (α → List (Value × Ty))) : Prop where
  emits : ∀ types, Knows mode types known → ∃ types',
    Proper mode pc part types (x mode types.length).steps types' ∧
      (x mode types.length).temps = types'.length ∧
        Knows mode types' (out (x mode types.length).value)

def optional (ty : Ty) (v? : Option Value) : List (Value × Ty) := v?.toList.map (·, ty)

/-- The value is among those that are known, unless it is missing. -/
class Finds (v? : Option Value) (ty : outParam Ty) (known : List (Value × Ty)) : Prop where
  subset : optional ty v? ⊆ known

section Finds

variable {ty : Ty} {v? : Option Value} {e : Value × Ty} {known known' : List (Value × Ty)}

theorem finds_of_mem (h : (v, ty) ∈ known) : Finds (some v) ty known :=
  ⟨by simpa [optional] using h⟩

instance finds_tail [h : Finds v? ty known] : Finds v? ty (e :: known) :=
  ⟨List.Subset.trans h.subset (List.subset_cons_self _ _)⟩

instance finds_head : Finds (some v) ty ((v, ty) :: known) := finds_of_mem (.head _)

instance finds_optional : Finds v? ty (optional ty v?) := ⟨List.Subset.refl _⟩

instance finds_append_right [h : Finds v? ty known'] : Finds v? ty (known ++ known') :=
  ⟨List.Subset.trans h.subset (List.subset_append_right _ _)⟩

instance finds_append_left [h : Finds v? ty known] : Finds v? ty (known ++ known') :=
  ⟨List.Subset.trans h.subset (List.subset_append_left _ _)⟩

instance finds_ite {c : Prop} [Decidable c] {a b : Value} [ha : Finds (some a) ty known]
    [hb : Finds (some b) ty known] : Finds (some (if c then a else b)) ty known := by
  split
  · exact ha
  · exact hb

theorem Finds.has (h : Finds (some v) ty known) (hknown : Knows mode types known) :
    v.Has mode types ty :=
  hknown (v, ty) (h.subset (.head _))

end Finds

section Emits

variable {α β : Type} {x y : Build α} {known : List (Value × Ty)} {out : α → List (Value × Ty)}
  {out' : β → List (Value × Ty)} {k : α → Build β}

theorem emits_bind (hx : Emits mode pc part known x out)
    (hk : ∀ a, Emits mode pc part (out a ++ known) (k a) out') :
    Emits mode pc part known (x >>= k) out' where
  emits types hknown := by
    obtain ⟨types', hsteps, htemps, hout⟩ := hx.emits types hknown
    obtain ⟨types'', hsteps', htemps', hout'⟩ :=
      (hk _).emits types' (hout.append (hknown.mono hsteps.isPrefix))
    rw [← htemps] at hsteps' htemps' hout'
    exact ⟨types'', hsteps.append hsteps', htemps', hout'⟩

instance emits_seq [hx : Emits mode pc part known x out]
    [hk : ∀ a, Emits mode pc part (out a ++ known) (k a) out'] :
    Emits mode pc part known (x >>= k) out' :=
  emits_bind hx hk

instance emits_map {f : α → β} [hx : Emits mode pc part known x out]
    [hf : ∀ a, Emits mode pc part (out a ++ known) (pure (f a)) out'] :
    Emits mode pc part known (f <$> x) out' :=
  emits_bind hx hf

instance emits_ite {c : Prop} [Decidable c] [hx : Emits mode pc part known x out]
    [hy : Emits mode pc part known y out] :
    Emits mode pc part known (if c then x else y) out := by
  split
  · exact hx
  · exact hy

theorem emits_pure {a : α} (h : ∀ types, Knows mode types known → Knows mode types (out a)) :
    Emits mode pc part known (pure a) out where
  emits types hknown := ⟨types, .nil, rfl, h types hknown⟩

instance emits_pure_unit : Emits mode pc part known (pure ()) fun _ => [] :=
  emits_pure fun _ _ _ h => by cases h

instance emits_pure_value {ty : Ty} [h : Finds (some v) ty known] :
    Emits mode pc part known (pure v) fun w => [(w, ty)] :=
  emits_pure fun _ hknown => knows_one (h.has hknown)

instance emits_pure_pair {w : Value} {ty ty' : Ty} [hv : Finds (some v) ty known]
    [hw : Finds (some w) ty' known] :
    Emits mode pc part known (pure (v, w)) fun r => [(r.1, ty), (r.2, ty')] :=
  emits_pure fun _ hknown =>
    List.forall_mem_cons.mpr ⟨hv.has hknown, knows_one (hw.has hknown)⟩

instance emits_pure_left {ty : Ty} [hv : Finds (some v) ty known] :
    Emits mode pc part known (pure (v, none)) fun r => (r.1, ty) :: optional ty r.2 :=
  emits_pure fun _ hknown => knows_one (hv.has hknown)

instance emits_pure_both {w : Value} {ty : Ty} [hv : Finds (some v) ty known]
    [hw : Finds (some w) ty known] :
    Emits mode pc part known (pure (v, some w)) fun r => (r.1, ty) :: optional ty r.2 :=
  emits_pure fun _ hknown =>
    List.forall_mem_cons.mpr ⟨hv.has hknown, knows_one (hw.has hknown)⟩

theorem emits_add {step : Step}
    (h : ∀ types, Knows mode types known → Proper mode pc part types [step] types) :
    Emits mode pc part known (add step) fun _ => [] where
  emits types hknown := ⟨types, h types hknown, rfl, fun _ h => by cases h⟩

section Loop

variable {γ : Type} {c : γ} {l : List γ} {k : γ → Build Unit}

instance emits_forM_nil : Emits mode pc part known (List.forM [] k) fun _ => [] :=
  inferInstanceAs (Emits mode pc part known (pure ()) _)

instance emits_forM_cons [hc : Emits mode pc part known (k c) fun _ => []]
    [hl : Emits mode pc part known (l.forM k) fun _ => []] :
    Emits mode pc part known (List.forM (c :: l) k) fun _ => [] :=
  emits_bind hc fun _ => hl

/-- A loop without a result. -/
theorem emits_forM (hk : ∀ c ∈ l, Emits mode pc part known (k c) fun _ => []) :
    Emits mode pc part known (l.forM k) fun _ => [] := by
  induction l with
  | nil => infer_instance
  | cons c l ih =>
    have hc := hk c (.head _)
    have hl := ih fun d hd => hk d (.tail _ hd)
    infer_instance

instance emits_forM_all [hk : ∀ c, Emits mode pc part known (k c) fun _ => []] :
    Emits mode pc part known (l.forM k) fun _ => [] :=
  emits_forM fun c _ => hk c

end Loop

end Emits

class Build.Proper (mode : Mode) (pc : UInt64) (known : List (Value × Ty)) (x : Build Unit) :
    Prop where
  proper : ∀ types, Knows mode types known → ProperBody mode pc types (x mode types.length).steps

namespace Build.Proper

variable {α γ : Type} {x x' : Build Unit} {y : Build α} {k : α → Build Unit}
  {known : List (Value × Ty)}

instance of_access {out : Unit → List (Value × Ty)} [h : Emits mode pc .access known x out] :
    x.Proper mode pc known where
  proper types hknown := by
    obtain ⟨types', hsteps, -, -⟩ := h.emits types hknown
    exact ⟨_, [], types', types', (List.append_nil _).symm, hsteps, .nil⟩

theorem bind {out : α → List (Value × Ty)} (hy : Emits mode pc .access known y out)
    (hk : ∀ a, (k a).Proper mode pc (out a ++ known)) : Build.Proper mode pc known (y >>= k) where
  proper types hknown := by
    obtain ⟨types', hsteps, htemps, hout⟩ := hy.emits types hknown
    obtain ⟨first, second, types₁, types₂, heq, hfirst, hsecond⟩ :=
      (hk _).proper types' (hout.append (hknown.mono hsteps.isPrefix))
    rw [← htemps] at heq
    refine ⟨_ ++ first, second, types₁, types₂, ?_, hsteps.append hfirst, hsecond⟩
    rw [List.append_assoc, ← heq]
    rfl

instance seq {out : α → List (Value × Ty)} [hy : Emits mode pc .access known y out]
    [hk : ∀ a, (k a).Proper mode pc (out a ++ known)] : Build.Proper mode pc known (y >>= k) :=
  bind hy hk

instance seq_pair {z : Build (α × γ)} {out : α × γ → List (Value × Ty)} {k : α × γ → Build Unit}
    [hz : Emits mode pc .access known z out]
    [hk : ∀ a c, (k (a, c)).Proper mode pc (out (a, c) ++ known)] :
    Build.Proper mode pc known (z >>= k) :=
  bind hz fun r => hk r.1 r.2

instance ite {c : Prop} [Decidable c] [h : x.Proper mode pc known] [h' : x'.Proper mode pc known] :
    Build.Proper mode pc known (if c then x else x') := by
  split
  · exact h
  · exact h'

theorem of_update {out : Unit → List (Value × Ty)} (h : Emits mode pc .update known x out) :
    x.Proper mode pc known where
  proper types hknown := by
    obtain ⟨types', hsteps, -, -⟩ := h.emits types hknown
    exact ⟨[], _, types, types', rfl, .nil, hsteps⟩

instance update {out : Unit → List (Value × Ty)} [h : Emits mode pc .update known x out] :
    x.Proper mode pc known :=
  of_update h

end Build.Proper

end Dynarec.Lift
