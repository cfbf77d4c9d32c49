import Dynarec.Proofs.Host.Execution
import Dynarec.Proofs.Host.Lowering

/-!
# Running code while it is emitted

The code of a step of the lowering is part of the code that comes out in the end, so what running it
does can be said step by step while it is emitted.
-/

namespace Dynarec.Host

namespace Codegen

open Exec (Reaches Status)

variable {α β ω : Type}

/-- If `x` succeeds and its code is part of `code`, a run of `code` in status `p` goes on to a
status for which `post` holds. -/
def Leads (host : Surroundings ω) (code : Assembler) (env : Env) (x : Gen α) (s : State)
    (p : Status ω) (post : α → State → Status ω → Prop) : Prop :=
  ∀ a t, (x env s : Except CompileError α × State) = (.ok a, t) → t.asm.Within code →
    ∃ q, Reaches host code p q ∧ post a t q

/-- Control that comes to the code of `x` passes it, from its first instruction to its end. -/
def Passes (host : Surroundings ω) (code : Assembler) (env : Env) (x : Gen α) (s : State) (c : Cpu)
    (w : ω) (post : α → State → Cpu → ω → Prop) : Prop :=
  Leads host code env x s (.here s.asm.size c w) fun a t q =>
    ∃ c' w', q = .here t.asm.size c' w' ∧ post a t c' w'

variable {host : Surroundings ω} {code : Assembler} {env : Env} {s : State} {p : Status ω}
  {c : Cpu} {w : ω} {x : Gen α} {f : α → Gen β} {post : α → State → Status ω → Prop} {a : α}
  {g : State → State} {mid : α → State → Cpu → ω → Prop} {e : Asm Unit} {item : Item}
  {b : Assembler}

theorem Leads.mono {post' : α → State → Status ω → Prop} (h : Leads host code env x s p post)
    (himp : ∀ a t q, post a t q → post' a t q) :
    Leads host code env x s p post' := by
  intro a t hrun hin
  obtain ⟨q, hq, hpost⟩ := h a t hrun hin
  exact ⟨q, hq, himp a t q hpost⟩

theorem Leads.bind [∀ a, Grows env (f a)] {mid : α → State → Status ω → Prop}
    {post : β → State → Status ω → Prop} (hx : Leads host code env x s p mid)
    (hf : ∀ a t q, mid a t q → Leads host code env (f a) t q post) :
    Leads host code env (x >>= f) s p post := by
  intro b u hrun hin
  obtain ⟨a, t, heq, hrest⟩ := ok_of_bind hrun
  have hgrow := Grows.within env (f a) t
  rw [hrest] at hgrow
  obtain ⟨q, hq, hmid⟩ := hx a t heq (hgrow.trans hin)
  obtain ⟨r, hr, hpost⟩ := hf a t q hmid b u hrest hin
  exact ⟨r, hq.trans hr, hpost⟩

/-- What was emitted before stays. -/
theorem Leads.grow [Grows env x] (h : Leads host code env x s p post) :
    Leads host code env x s p fun a t q => s.asm.Within t.asm ∧ post a t q := by
  intro a t hrun hin
  obtain ⟨q, hq, hpost⟩ := h a t hrun hin
  have hgrow := Grows.within env x s
  rw [hrun] at hgrow
  exact ⟨q, hq, hgrow, hpost⟩

theorem leads_pure (h : post a s p) : Leads host code env (pure a) s p post := by
  rintro _ _ ⟨⟩ _
  exact ⟨p, .refl p, h⟩

theorem leads_throw {e : CompileError} : Leads host code env (throw e : Gen α) s p post := by
  rintro _ _ ⟨⟩

theorem leads_get_bind {f : State → Gen α} (h : Leads host code env (f s) s p post) :
    Leads host code env (get >>= f) s p post := h

theorem leads_read_bind {f : Env → Gen α} (h : Leads host code env (f env) s p post) :
    Leads host code env (read >>= f) s p post := h

theorem leads_modify {post : PUnit → State → Status ω → Prop} (h : post () (g s) p) :
    Leads host code env (modify g) s p post := by
  rintro _ _ ⟨⟩ _
  exact ⟨p, .refl p, h⟩

/-- What follows a change of the state. -/
theorem leads_modify_bind {f : PUnit → Gen α} (h : Leads host code env (f ()) (g s) p post) :
    Leads host code env (modify g >>= f) s p post := h

/-- A run that does not come to the code of `x`. -/
theorem leads_idle (p : Status ω) [Grows env x] :
    Leads host code env x s p fun _ t q => q = p ∧ s.asm.Within t.asm := by
  intro a t hrun _
  have hgrow := Grows.within env x s
  rw [hrun] at hgrow
  exact ⟨p, .refl p, rfl, hgrow⟩

theorem leads_asm {e : Asm α}
    (h : ∀ a b, e.run s.asm = (.ok a, b) → b.Within code →
      ∃ q, Reaches host code p q ∧ post a { s with asm := b } q) :
    Leads host code env (asm e) s p post := by
  intro a t hrun hin
  rw [run_asm] at hrun
  generalize heq : (e.run s.asm) = r at hrun
  rcases r with ⟨_ | _, b⟩ <;> cases hrun
  exact h _ _ heq hin

theorem leads_liftRegs_bind {r : Except RegisterError α} {post : β → State → Status ω → Prop}
    (h : ∀ a, r = .ok a → Leads host code env (f a) s p post) :
    Leads host code env (liftRegs r >>= f) s p post := by
  cases r with
  | ok a => exact h a rfl
  | error e =>
    intro b t hrun
    cases hrun

theorem Passes.mono {post post' : α → State → Cpu → ω → Prop}
    (h : Passes host code env x s c w post) (himp : ∀ a t c' w', post a t c' w' → post' a t c' w') :
    Passes host code env x s c w post' := by
  refine Leads.mono h ?_
  rintro a t q ⟨c', w', rfl, hpost⟩
  exact ⟨c', w', rfl, himp a t c' w' hpost⟩

theorem Passes.bind_leads [∀ a, Grows env (f a)] {post : β → State → Status ω → Prop}
    (hx : Passes host code env x s c w mid) (hf : ∀ a t c' w', mid a t c' w' →
      Leads host code env (f a) t (.here t.asm.size c' w') post) :
    Leads host code env (x >>= f) s (.here s.asm.size c w) post := by
  refine Leads.bind hx ?_
  rintro a t q ⟨c', w', rfl, hmid⟩
  exact hf a t c' w' hmid

theorem Passes.bind [∀ a, Grows env (f a)] {post : β → State → Cpu → ω → Prop}
    (hx : Passes host code env x s c w mid)
    (hf : ∀ a t c' w', mid a t c' w' → Passes host code env (f a) t c' w' post) :
    Passes host code env (x >>= f) s c w post :=
  hx.bind_leads hf

theorem Passes.grow [Grows env x] {post : α → State → Cpu → ω → Prop}
    (h : Passes host code env x s c w post) :
    Passes host code env x s c w fun a t c' w' => s.asm.Within t.asm ∧ post a t c' w' := by
  refine Leads.mono (Leads.grow h) ?_
  rintro a t q ⟨hin, c', w', rfl, hpost⟩
  exact ⟨c', w', rfl, hin, hpost⟩

theorem passes_pure {post : α → State → Cpu → ω → Prop} (h : post a s c w) :
    Passes host code env (pure a) s c w post :=
  leads_pure ⟨c, w, rfl, h⟩

section

variable (he : e.run s.asm = (.ok (), b))

include he

/-- An emission step that appends an instruction. -/
theorem leads_emit {i : Nat} {post : Unit → State → Status ω → Prop} (hi : i = s.asm.size)
    (hb : b.items = s.asm.items.push item)
    (h : code.items[i]? = some item → ∃ q, Reaches host code (.here i c w) q ∧
      post () { s with asm := b } q) :
    Leads host code env (asm e) s (.here i c w) post := by
  refine leads_asm fun a b' heq hin => ?_
  rw [he] at heq
  cases heq
  refine h (hin.items i item ?_)
  rw [hb, hi]
  simp [Assembler.size]

theorem passes_emit {c' : Cpu} {w' : ω} {post : Unit → State → Cpu → ω → Prop}
    (hb : b.items = s.asm.items.push item) (hs : Exec.step host c w item.instr = .next c' w')
    (h : post () { s with asm := b } c' w') : Passes host code env (asm e) s c w post := by
  refine leads_emit he rfl hb fun hitem => ⟨_, .next hitem hs (.refl _), c', w', ?_, h⟩
  simp [Assembler.size, hb]

end

end Codegen

end Dynarec.Host
