import Dynarec.Proofs.IR.PhiCopies
import Dynarec.Proofs.IR.Sealed

/-!
# Deconstruction

Deconstruction succeeds on sealed functions, keeps them well-formed and sealed, and replaces the
phis at the head of every block by copies.
-/

open Function (update update_apply update_self)

namespace Dynarec.IR

open List Program

namespace Function

variable {f g k : Function}

theorem WellFormed.terminator?_eq (h : f.WellFormed) {b : BlockId} {first : List OpId} {last : OpId}
    (hcode : f.program.code b = first ++ [last])
    (hlast : (f.program.stmt last).inst.isTerminator = true) : f.terminator? b = some last := by
  have hblock : (f.block b).last = (f.program.code b).getLast? := h.layout.last b
  have hlast : (f.operation last).inst.isTerminator = true := hlast
  simp [terminator?, hblock, hcode, hlast]

end Function

namespace SSA

open IR.Function (SamePools Inserted OneMore)

variable {f g k : Function} {t : OperandId} {pairs : List (BlockId × OperandId)} {id : OpId}

/-! ### Copies at the ends of blocks -/

/-- `g` is `f` with new operations in front of the terminators. -/
structure Widened (f g : Function) (copies : BlockId → List OpId) : Prop where
  wf : g.WellFormed
  operations : f.operations.size ≤ g.operations.size
  code : ∀ b, g.program.code b =
    (f.program.code b).dropLast ++ copies b ++ (f.program.code b).getLast?.toList
  empty : ∀ b, f.program.code b = [] → copies b = []
  new : ∀ b, ∀ x ∈ copies b, f.operations.size ≤ x.index

namespace Widened

variable {copies copies' : BlockId → List OpId}

theorem refl (h : f.WellFormed) : Widened f f fun _ => [] where
  wf := h
  operations := le_rfl
  code b := by rw [append_nil, Program.dropLast_append_getLast?]
  empty _ _ := rfl
  new _ := forall_mem_nil _

theorem trans (h : Widened f g copies) (h' : Widened g k copies') :
    Widened f k fun b => copies b ++ copies' b where
  wf := h'.wf
  operations := h.operations.trans h'.operations
  code b := by
    rw [h'.code, h.code]
    rcases eq_nil_or_concat (f.program.code b) with hnil | ⟨first, last, hconcat⟩
    · simp [hnil, h.empty b hnil]
    · simp [hconcat]
  empty b hnil := by
    have hnil' : g.program.code b = [] := by simp [h.code, hnil, h.empty b hnil]
    rw [h.empty b hnil, h'.empty b hnil']
    rfl
  new b x hx := by
    rcases mem_append.mp hx with hx | hx
    · exact h.new b x hx
    · exact h.operations.trans (h'.new b x hx)

theorem lt_operations (h : Widened f g copies) {b : BlockId} {x : OpId} (hx : x ∈ copies b) :
    x.index < g.operations.size := by
  refine h.wf.lt_operations (b := b) ?_
  rw [h.code]
  simp [hx]

end Widened

/-- The new operations are copies, which set `t` as `pairs` say. -/
structure Copied (f g : Function) (t : OperandId) (copies : BlockId → List OpId)
    (pairs : List (BlockId × OperandId)) : Prop extends Widened f g copies where
  pools : SamePools f g
  old : ∀ id : OpId, id.index < f.operations.size → g.program.stmt id = f.program.stmt id
  copy : ∀ b, ∀ x ∈ copies b, ∃ s, (b, s) ∈ pairs ∧ g.program.stmt x = ⟨.copy, some t, [s]⟩
  set : ∀ e ∈ pairs, ∃ x ∈ copies e.1, g.program.stmt x = ⟨.copy, some t, [e.2]⟩

theorem Copied.refl (h : f.WellFormed) : Copied f f t (fun _ => []) [] where
  toWidened := .refl h
  pools := .refl f
  old _ _ := rfl
  copy _ := forall_mem_nil _
  set := forall_mem_nil _

/-- Copies keep the terminators at the ends. -/
theorem Copied.terminated {copies : BlockId → List OpId} (h : Copied f g t copies pairs)
    (hf : f.WellFormed) {b : BlockId} (hterm : f.program.Terminated (f.program.code b)) :
    g.program.Terminated (g.program.code b) := by
  refine hterm.insert (h.code b) (fun id hid => ?_) fun x hx => ?_
  · rw [h.old id (hf.lt_operations hid)]
  · obtain ⟨s, -, hstmt⟩ := h.copy b x hx
    rw [hstmt]
    rfl

/-- One copy. -/
theorem copyAtEnd_copied (h : f.WellFormed) {b : BlockId} {s : OperandId}
    (hterm : f.program.Terminated (f.program.code b)) (ht : t.index < f.operands.size)
    (hs : s.index < f.operands.size) : ∃ g copies,
      copyAtEnd t f b s = (.ok (), g) ∧ Copied f g t copies [(b, s)] := by
  obtain ⟨first, last, hcode, hlast⟩ := hterm.exists_last
  have hins : Inserted f b ⟨.copy, some t, [s]⟩ (first ++ [⟨f.operations.size⟩, last])
      (f.pushBefore last .copy (some t) [s]) :=
    h.inserted_pushBefore .copy hcode (by simp [maxSources]) (by simpa using hs) (by simpa using ht)
  generalize hres : f.pushBefore last .copy (some t) [s] = res at hins
  refine ⟨res.2, fun c => if c = b then [⟨f.operations.size⟩] else [], ?_,
    ⟨hins.wf, by rw [hins.size]; omega, ?_, ?_, ?_⟩, hins.pools, fun id => hins.stmt_of_lt, ?_, ?_⟩
  · rw [copyAtEnd, h.terminator?_eq hcode hlast]
    simp only [hres]
  · intro c
    rw [hins.program, code_withCode]
    split
    next hc =>
      rw [hc, hcode]
      simp
    next hc => rw [append_nil, Program.dropLast_append_getLast?, code_withStmt]
  · intro c hnil
    refine if_neg fun hc => ?_
    rw [hc, hcode] at hnil
    simp at hnil
  · intro c x hx
    rw [mem_singleton.mp (mem_ite_nil_right.mp hx).2]
  · intro c x hx
    obtain ⟨hc, hx⟩ := mem_ite_nil_right.mp hx
    obtain rfl := mem_singleton.mp hx
    exact ⟨s, by simp [hc], hins.stmt_new⟩
  · intro e he
    obtain rfl := mem_singleton.mp he
    exact ⟨⟨f.operations.size⟩, by simp, hins.stmt_new⟩

theorem Copied.trans {copies copies' : BlockId → List OpId} {pairs' : List (BlockId × OperandId)}
    (h : Copied f g t copies pairs) (h' : Copied g k t copies' pairs') :
    Copied f k t (fun b => copies b ++ copies' b) (pairs ++ pairs') where
  toWidened := h.toWidened.trans h'.toWidened
  pools := h.pools.trans h'.pools
  old id hid := by
    rw [h'.old id (hid.trans_le h.operations), h.old id hid]
  copy b x hx := by
    rcases mem_append.mp hx with hx | hx
    · obtain ⟨s, hs, hstmt⟩ := h.copy b x hx
      refine ⟨s, mem_append_left _ hs, ?_⟩
      rw [h'.old x (h.lt_operations hx), hstmt]
    · obtain ⟨s, hs, hstmt⟩ := h'.copy b x hx
      exact ⟨s, mem_append_right _ hs, hstmt⟩
  set e he := by
    rcases mem_append.mp he with he | he
    · obtain ⟨x, hx, hstmt⟩ := h.set e he
      refine ⟨x, mem_append_left _ hx, ?_⟩
      rw [h'.old x (h.lt_operations hx), hstmt]
    · obtain ⟨x, hx, hstmt⟩ := h'.set e he
      exact ⟨x, mem_append_right _ hx, hstmt⟩

theorem copyAtEnds_copied (h : f.WellFormed) (ht : t.index < f.operands.size)
    (hpairs : ∀ e ∈ pairs, f.program.Terminated (f.program.code e.1) ∧
      e.2.index < f.operands.size) : ∃ g copies,
      copyAtEnds t f pairs = (.ok (), g) ∧ Copied f g t copies pairs := by
  induction pairs generalizing f with
  | nil => exact ⟨f, _, rfl, .refl h⟩
  | cons e pairs ih =>
    obtain ⟨hterm, hs⟩ := hpairs e (.head _)
    obtain ⟨g, copies, hone, hcopied⟩ := copyAtEnd_copied h hterm ht hs
    have hsize := hcopied.pools.operands
    obtain ⟨k, copies', hrest, hcopied'⟩ := ih hcopied.wf (by rwa [hsize]) fun e' he' => by
        obtain ⟨hterm', hs'⟩ := hpairs e' (.tail _ he')
        exact ⟨hcopied.terminated h hterm', by rwa [hsize]⟩
    refine ⟨k, _, ?_, hcopied.trans hcopied'⟩
    rw [copyAtEnds, hone]
    exact hrest

/-! ### One phi -/

/-- `g` is `f` with an operation turned into a copy of a new local, which `copies` set as `pairs`
say. -/
structure Replaced (f g : Function) (id : OpId) (copies : BlockId → List OpId)
    (pairs : List (BlockId × OperandId)) : Prop
    extends Widened f g copies, Function.OperandsKept f g where
  blocks : g.blocks.size = f.blocks.size
  size : g.operands.size = f.operands.size + 1
  local_ : ∃ i, g.program.kind ⟨f.operands.size⟩ = .local_ i
  preds : g.program.preds = f.program.preds
  self : g.program.stmt id = ⟨.copy, (f.program.stmt id).dest, [⟨f.operands.size⟩]⟩
  old : ∀ e : OpId, e.index < f.operations.size → e ≠ id → g.program.stmt e = f.program.stmt e
  copy : ∀ b, ∀ x ∈ copies b, ∃ s, (b, s) ∈ pairs ∧
    g.program.stmt x = ⟨.copy, some ⟨f.operands.size⟩, [s]⟩
  set : ∀ e ∈ pairs, ∃ x ∈ copies e.1, g.program.stmt x = ⟨.copy, some ⟨f.operands.size⟩, [e.2]⟩

theorem copyAtEnds_replaced (h : f.WellFormed) {b : BlockId} (hid : id ∈ f.program.code b)
    (ty : Ty) (hpairs : ∀ e ∈ pairs, f.program.Terminated (f.program.code e.1) ∧
      e.2.index < f.operands.size) :
    ∃ (k : Function) (copies : BlockId → List OpId),
      copyAtEnds ⟨f.operands.size⟩ (f.newLocal ty).2 pairs = (.ok (), k) ∧
      Replaced f ((k.setInstruction id .copy).replaceSources id [⟨f.operands.size⟩]) id copies
        pairs := by
  have hmore : OneMore f (.local_ f.localCount) ty (f.newLocal ty).2 := f.oneMore_newLocal ty
  have hcode := hmore.grows.code_eq
  have hstmt := hmore.grows.stmt_eq
  have hlt := hmore.lt_size
  obtain ⟨k, copies, hrun, hcopied⟩ := copyAtEnds_copied (t := ⟨f.operands.size⟩)
    (h.newLocal ty) hlt fun e he => by
      obtain ⟨hterm, hsource⟩ := hpairs e he
      rw [hcode]
      exact ⟨hterm.congr fun x _ => by rw [hstmt], hsource.trans hlt⟩
  have hops : (f.newLocal ty).2.operations = f.operations := hmore.operations
  have hold : ∀ e : OpId, e.index < f.operations.size → k.program.stmt e = f.program.stmt e := by
    intro e he
    rw [hcopied.old e (by rwa [hops]), hstmt]
  have hmem : id ∈ k.program.code b := by
    rw [← Program.dropLast_append_getLast? (f.program.code b), mem_append] at hid
    rw [hcopied.code, hcode, mem_append, mem_append]
    exact hid.imp_left .inl
  obtain ⟨hw, hpools, hsize, hprog⟩ := hcopied.wf.setCopy (o := ⟨f.operands.size⟩) hmem (by
    rw [hcopied.pools.operands]
    exact hlt)
  rw [hold id (h.lt_operations hid)] at hprog
  have hne : ∀ c, ∀ x ∈ copies c, x ≠ id := by
    rintro c x hx rfl
    have hle := hcopied.new c x hx
    exact (h.lt_operations hid).not_ge hle
  refine ⟨k, copies, hrun, ?_⟩
  generalize (k.setInstruction id .copy).replaceSources id [⟨f.operands.size⟩] = g at *
  refine ⟨⟨hw, ?_, fun c => ?_, fun c hnil => hcopied.empty c (by rw [hcode]; exact hnil),
    fun c x hx => ?_⟩,
    hmore.grows.operandsKept.trans (hcopied.pools.operandsKept.trans hpools.operandsKept), ?_, ?_,
    ⟨f.localCount, ?_⟩, ?_, ?_, fun e he hnot => ?_, fun c x hx => ?_, fun e he => ?_⟩
  · have hle := hcopied.operations
    rwa [hsize]
  · rw [hprog, code_withStmt, hcopied.code, hcode]
  · have hle := hcopied.new c x hx
    rwa [hops] at hle
  · rw [hpools.blocks, hcopied.pools.blocks, hmore.blocks]
  · rw [hpools.operands, hcopied.pools.operands, hmore.size]
  · refine (hpools.kind _).trans ((hcopied.pools.kind _).trans ?_)
    rw [hmore.operand_new]
  · rw [hprog]
    exact funext hcopied.pools.predecessors
  · rw [hprog, stmt_withStmt, if_pos rfl]
  · rw [hprog, stmt_withStmt, if_neg hnot, hold e he]
  · obtain ⟨s, hs, heq⟩ := hcopied.copy c x hx
    exact ⟨s, hs, by rw [hprog, stmt_withStmt, if_neg (hne c x hx), heq]⟩
  · obtain ⟨x, hx, heq⟩ := hcopied.set e he
    exact ⟨x, hx, by rw [hprog, stmt_withStmt, if_neg (hne e.1 x hx), heq]⟩

/-! ### All phis -/

/-- How far deconstruction has come: `g` is `f` with the phis `heads` replaced. -/
structure Resolving (f g : Function) (heads copies : BlockId → List OpId)
    (temp : OpId → OperandId) : Prop extends Widened f g copies, Function.OperandsKept f g where
  blocks : g.blocks.size = f.blocks.size
  resolves : f.program.Resolves g.program heads copies temp
  temp : ∀ b, ∀ id ∈ heads b, f.operands.size ≤ (temp id).index ∧ (temp id).index < g.operands.size

variable {heads copies : BlockId → List OpId} {temp : OpId → OperandId} {b : BlockId}

theorem Resolving.refl (h : f.WellFormed) :
    Resolving f f (fun _ => []) (fun _ => []) fun _ => ⟨0⟩ where
  toWidened := .refl h
  toOperandsKept := .refl f
  blocks := rfl
  resolves := {
    head := fun _ => nil_prefix
    phi := fun _ => forall_mem_nil _
    code := (Widened.refl h).code
    preds := rfl
    resolved := fun _ => forall_mem_nil _
    other := fun _ _ _ _ => rfl
    copy := fun _ => forall_mem_nil _
    set := fun _ => forall_mem_nil _
    local_ := fun _ => forall_mem_nil _
    inj := fun _ _ => forall_mem_nil _
    fresh := fun _ _ => forall_mem_nil _ }
  temp _ := forall_mem_nil _

theorem mem_update_append {c : BlockId} {e : OpId} :
    e ∈ update heads b (heads b ++ [id]) c ↔ e ∈ heads c ∨ c = b ∧ e = id := by
  rw [update_apply]
  split
  next hc => simp [hc]
  next hc => simp [hc]

section Step

variable {id : OpId} {rest : List OpId} {d : OperandId} {copies' : BlockId → List OpId}
  {pairs : List (BlockId × OperandId)} {c c' : BlockId} {e e' : OpId}
  (h : Resolving f g heads copies temp) (hf : f.WellFormed)
  (hcode : f.program.code b = heads b ++ id :: rest) (hk : Replaced g k id copies' pairs)

include h hf hcode

namespace Resolving

/-- A phi behind the phis that were replaced is still there. -/
theorem not_mem (c : BlockId) : id ∉ heads c := by
  intro hc
  have hid := mem_of_split hcode
  obtain rfl := hf.block_unique hid (h.resolves.mem_code hc)
  exact hf.notMem_code hcode (.head _) hc

/-- A phi that has been replaced was so before, or it is the one replaced now. -/
theorem heads_cases (he : e ∈ update heads b (heads b ++ [id]) c) {t : OperandId} :
    e ∈ heads c ∧ e ≠ id ∧ update temp id t e = temp e ∨
      c = b ∧ e = id ∧ update temp id t e = t := by
  rcases mem_update_append.mp he with hmem | ⟨hc, heq⟩
  · have hne : e ≠ id := fun heq => h.not_mem hf hcode c (heq ▸ hmem)
    exact .inl ⟨hmem, hne, Function.update_of_ne hne _ _⟩
  · exact .inr ⟨hc, heq, by rw [heq, update_self]⟩

include hk

/-- The copies for other phis stay. -/
theorem stmt_copies {x : OpId} (hx : x ∈ copies c) : k.program.stmt x = g.program.stmt x := by
  refine hk.old x (h.lt_operations hx) ?_
  rintro rfl
  exact (hf.lt_operations (mem_of_split hcode)).not_ge (h.new c x hx)

theorem temp_range (he : e ∈ update heads b (heads b ++ [id]) c) :
    f.operands.size ≤ (update temp id ⟨g.operands.size⟩ e).index ∧
      (update temp id ⟨g.operands.size⟩ e).index < k.operands.size := by
  rw [hk.size]
  rcases h.heads_cases hf hcode he with ⟨he, -, htemp⟩ | ⟨-, -, htemp⟩
  · rw [htemp]
    exact ⟨(h.temp c e he).1, Nat.lt_succ_of_lt (h.temp c e he).2⟩
  · rw [htemp]
    exact ⟨h.operands, Nat.lt_succ_self _⟩

omit hk in
/-- The new local is past the locals of the other phis. -/
theorem temp_inj (he : e ∈ update heads b (heads b ++ [id]) c)
    (he' : e' ∈ update heads b (heads b ++ [id]) c')
    (heq : update temp id ⟨g.operands.size⟩ e = update temp id ⟨g.operands.size⟩ e') : e = e' := by
  rcases h.heads_cases hf hcode he with ⟨hmem, -, htemp⟩ | ⟨-, hself, htemp⟩ <;>
    rcases h.heads_cases hf hcode he' with ⟨hmem', -, htemp'⟩ | ⟨-, hself', htemp'⟩ <;>
    rw [htemp, htemp'] at heq
  · exact h.resolves.inj c c' e hmem e' hmem' heq
  · exact absurd (heq ▸ (h.temp c e hmem).2) (lt_irrefl _)
  · exact absurd (heq ▸ (h.temp c' e' hmem').2) (lt_irrefl _)
  · rw [hself, hself']

variable (hphi : (f.program.stmt id).inst = .phi) (hd : (f.program.stmt id).dest = some d)
  (hpairs : pairs = (f.program.preds b).zip (f.program.stmt id).sources)

include hphi hd hpairs

theorem resolves_step :
    f.program.Resolves k.program (update heads b (heads b ++ [id]))
      (fun c => copies c ++ copies' c) (update temp id ⟨g.operands.size⟩) := by
  have hid := mem_of_split hcode
  have hcases : ∀ {c e}, e ∈ update heads b (heads b ++ [id]) c → _ := fun he =>
    h.heads_cases hf hcode he (t := ⟨g.operands.size⟩)
  have hlt : ∀ {c e}, e ∈ f.program.code c → e.index < g.operations.size := fun he =>
    (hf.lt_operations he).trans_le h.operations
  have hzip : ∀ c s, (c, s) ∈ pairs ↔
      ∃ j : Nat, (f.program.preds b)[j]? = some c ∧ (f.program.stmt id).sources[j]? = some s := by
    simp [hpairs, mem_iff_getElem?, getElem?_zip_eq_some]
  constructor
  case head =>
    intro c
    rw [update_apply]
    split
    next hc =>
      rw [hc, hcode]
      exact ⟨rest, by simp⟩
    · exact h.resolves.head c
  case phi =>
    intro c e he
    rcases hcases he with ⟨he, -⟩ | ⟨rfl, rfl, -⟩
    · exact h.resolves.phi c e he
    · exact ⟨hphi, d, hd⟩
  case code => exact (h.toWidened.trans hk.toWidened).code
  case preds => rw [hk.preds, h.resolves.preds]
  case resolved =>
    intro c e he
    rcases hcases he with ⟨he, hne, htemp⟩ | ⟨rfl, rfl, htemp⟩
    · rw [hk.old e (hlt (h.resolves.mem_code he)) hne, h.resolves.resolved c e he, htemp]
    · rw [hk.self, h.resolves.other c e hid (h.not_mem hf hcode c), htemp]
  case other =>
    intro c e he hnothead
    have hne : e ≠ id := by
      rintro rfl
      obtain rfl := hf.block_unique hid he
      exact hnothead (mem_update_append.mpr (.inr ⟨rfl, rfl⟩))
    rw [hk.old e (hlt he) hne]
    exact h.resolves.other c e he fun hhead => hnothead (mem_update_append.mpr (.inl hhead))
  case copy =>
    intro c x hx
    rcases mem_append.mp hx with hx | hx
    · obtain ⟨c', e, he, j, s, hpred, hsource, hstmt⟩ := h.resolves.copy c x hx
      refine ⟨c', e, mem_update_append.mpr (.inl he), j, s, hpred, hsource, ?_⟩
      have hne : e ≠ id := fun heq => h.not_mem hf hcode c' (heq ▸ he)
      rw [h.stmt_copies hf hcode hk hx, hstmt, Function.update_of_ne hne]
    · obtain ⟨s, hs, hstmt⟩ := hk.copy c x hx
      obtain ⟨j, hpred, hsource⟩ := (hzip c s).mp hs
      exact ⟨b, id, mem_update_append.mpr (.inr ⟨rfl, rfl⟩), j, s, hpred, hsource, by
        rw [hstmt, update_self]⟩
  case set =>
    intro c e he j c' s hpred hsource
    rcases hcases he with ⟨he, -, htemp⟩ | ⟨rfl, rfl, htemp⟩
    · obtain ⟨x, hx, hstmt⟩ := h.resolves.set c e he j c' s hpred hsource
      refine ⟨x, mem_append_left _ hx, ?_⟩
      rw [h.stmt_copies hf hcode hk hx, hstmt, htemp]
    · obtain ⟨x, hx, hstmt⟩ := hk.set (c', s) ((hzip c' s).mpr ⟨j, hpred, hsource⟩)
      exact ⟨x, mem_append_right _ hx, by rw [hstmt, htemp]⟩
  case local_ =>
    intro c e he
    rcases hcases he with ⟨he, -, htemp⟩ | ⟨-, -, htemp⟩
    · rw [htemp, hk.kind _ (h.temp c e he).2]
      exact h.resolves.local_ c e he
    · rw [htemp]
      exact hk.local_
  case inj => exact fun c c' e he e' he' => h.temp_inj hf hcode he he'
  case fresh =>
    intro c c' e he e' he'
    have hle := (h.temp_range hf hcode hk he).1
    exact ⟨fun hmem => hle.not_gt (hf.source_lt he' hmem),
      fun hwrites => hle.not_gt (hf.dest_lt he' hwrites)⟩

/-- One more phi is replaced. -/
theorem step :
    Resolving f k (update heads b (heads b ++ [id])) (fun c => copies c ++ copies' c)
      (update temp id ⟨g.operands.size⟩) where
  toWidened := h.toWidened.trans hk.toWidened
  toOperandsKept := h.toOperandsKept.trans hk.toOperandsKept
  blocks := hk.blocks.trans h.blocks
  resolves := h.resolves_step hf hcode hk hphi hd hpairs
  temp _ _ he := h.temp_range hf hcode hk he

end Resolving

end Step

def isPhi (f : Function) (id : OpId) : Bool := (f.program.stmt id).inst == .phi

theorem resolvePhis_of_not_phi {preds : List BlockId} {ids : List OpId}
    (h : ∀ id ∈ ids.head?, (g.program.stmt id).inst ≠ .phi) :
    resolvePhis preds g ids = (.ok 0, g) := by
  cases ids with
  | nil => rfl
  | cons id rest =>
    have hid : (g.operation id).inst ≠ .phi := h id rfl
    rw [resolvePhis]
    simp [hid]

/-- The phis that a block starts with are replaced, the others stay. -/
theorem Resolving.resolvePhis (h : Resolving f g heads copies temp) (hf : f.WellFormed)
    (hsealed : f.Sealed)
    (hdest : ∀ id ∈ f.program.code b, (f.program.stmt id).inst = .phi →
      ∃ d, (f.program.stmt id).dest = some d) {first later : List OpId} {last : OpId}
    (hcode : f.program.code b = heads b ++ (first ++ [last]))
    (hlast : (f.program.stmt last).inst.isTerminator = true) (hlater : later ⊆ copies b) :
    ∃ n k copies' temp',
      SSA.resolvePhis (f.program.preds b) g (first ++ (later ++ [last])) = (.ok n, k) ∧
      Resolving f k (update heads b (heads b ++ first.takeWhile (isPhi f))) copies'
        temp' := by
  induction first generalizing g heads copies temp with
  | nil =>
    have hnot : last ∉ heads b := h.not_mem hf hcode b
    have hstop : ∀ id ∈ later ++ [last], (g.program.stmt id).inst ≠ .phi := by
      intro id hid
      rcases mem_append.mp hid with hid | hid
      · obtain ⟨c, e, -, j, s, -, -, hstmt⟩ := h.resolves.copy b id (hlater hid)
        rw [hstmt]
        exact Instruction.noConfusion
      · obtain rfl := mem_singleton.mp hid
        rw [h.resolves.other b id (mem_of_split hcode) hnot]
        intro hphi
        rw [hphi] at hlast
        cases hlast
    refine ⟨0, g, copies, temp, resolvePhis_of_not_phi fun id hid =>
      hstop id (mem_of_mem_head? hid), ?_⟩
    rwa [takeWhile_nil, append_nil, Function.update_eq_self]
  | cons id first ih =>
    have hid := mem_of_split hcode
    have hstmt := h.resolves.other b id hid (h.not_mem hf hcode b)
    by_cases hphi : (f.program.stmt id).inst = .phi
    · obtain ⟨d, hd⟩ := hdest id hid hphi
      have hmem : id ∈ g.program.code b := h.resolves.mem_code_iff.mpr (.inl hid)
      have hpairs : ∀ e ∈ (f.program.preds b).zip (f.program.stmt id).sources,
          g.program.Terminated (g.program.code e.1) ∧ e.2.index < g.operands.size := by
        intro e he
        obtain ⟨hpred, hsource⟩ := of_mem_zip he
        have hlt := hf.lt_of_mem_successors ((hsealed.preds.mem b e.1 (hf.lt_blocks hid)).mp hpred)
        exact ⟨h.resolves.terminated (hsealed.terminated e.1 hlt),
          (hf.source_lt hid hsource).trans_le h.operands⟩
      obtain ⟨k, copies', hrun, hk⟩ :=
        copyAtEnds_replaced h.wf hmem (g.operand d).ty hpairs
      have hstep := h.step hf hcode hk hphi hd rfl
      obtain ⟨n, k', copies'', temp', hrest, hdone⟩ := ih hstep
        (by rw [hcode]; simp) (fun x hx => mem_append_left _ (hlater hx))
      refine ⟨n + 1, k', copies'', temp', ?_, ?_⟩
      · have hinst : (g.operation id).inst = .phi := (congrArg Stmt.inst hstmt).trans hphi
        have hdest' : (g.operation id).dest = some d := (congrArg Stmt.dest hstmt).trans hd
        have hsources : (g.operation id).sources = (f.program.stmt id).sources :=
          congrArg Stmt.sources hstmt
        rw [cons_append, SSA.resolvePhis]
        simp only [hinst, hdest', hsources, bne_self_eq_false, Bool.false_eq_true, if_false,
          show (g.newLocal _).1 = ⟨g.operands.size⟩ from rfl, hrun, hrest]
      · rw [update_self, Function.update_idem, append_assoc] at hdone
        rw [takeWhile_cons_of_pos (by simp [isPhi, hphi])]
        exact hdone
    · refine ⟨0, g, copies, temp, resolvePhis_of_not_phi ?_, ?_⟩
      · rintro x ⟨⟩
        rwa [hstmt]
      · rwa [takeWhile_cons_of_neg (by simp [isPhi, hphi]), append_nil, Function.update_eq_self]

def headsOf (f : Function) (done : List BlockId) (b : BlockId) : List OpId :=
  if b ∈ done then (f.program.code b).takeWhile (isPhi f) else []

def leadingPhis (f : Function) (b : BlockId) : List OpId :=
  (f.program.code b).takeWhile (isPhi f)

section

variable (hf : f.WellFormed) (hsealed : f.Sealed) (hdest : ∀ b, ∀ id ∈ f.program.code b,
  (f.program.stmt id).inst = .phi → ∃ d, (f.program.stmt id).dest = some d)

include hf hsealed hdest

theorem Resolving.resolveBlocks {done todo : List BlockId}
    (hnodup : (done ++ todo).Nodup) (htodo : ∀ b ∈ todo, b.index < f.blocks.size)
    (h : Resolving f g (headsOf f done) copies temp) : ∃ n k copies' temp',
      SSA.resolveBlocks g todo = (.ok n, k) ∧
        Resolving f k (headsOf f (done ++ todo)) copies' temp' := by
  induction todo generalizing done g copies temp with
  | nil =>
    refine ⟨0, g, copies, temp, rfl, ?_⟩
    rwa [append_nil]
  | cons b todo ih =>
    have hnotdone : b ∉ done := fun hmem =>
      (nodup_append.mp hnodup).2.2 b hmem b (.head _) rfl
    have hnil : headsOf f done b = [] := if_neg hnotdone
    obtain ⟨first, last, hcode, hlast⟩ :=
      (hsealed.terminated b (htodo b (.head _))).exists_last
    have hsplit : f.program.code b = headsOf f done b ++ (first ++ [last]) := by
      rw [hnil, hcode]
      rfl
    obtain ⟨n, k, copies', temp', hrun, hk⟩ := h.resolvePhis hf hsealed (hdest b) hsplit hlast
      (List.Subset.refl (copies b))
    have hheads : update (headsOf f done) b
        (headsOf f done b ++ first.takeWhile (isPhi f)) = headsOf f (done ++ [b]) := by
      funext c
      have hphi : isPhi f last = false := by
        rw [isPhi, beq_eq_false_iff_ne]
        intro heq
        rw [heq] at hlast
        cases hlast
      rw [update_apply, hnil, headsOf, headsOf]
      by_cases hc : c = b
      · have htake : (f.program.code b).takeWhile (isPhi f) = first.takeWhile (isPhi f) := by
          rw [hcode, takeWhile_append]
          split
          next hall =>
            rw [takeWhile_cons_of_neg (by simp [hphi]), append_nil]
            exact (( takeWhile_prefix _).eq_of_length hall).symm
          · rfl
        simp [hc, htake]
      · simp [hc]
    rw [hheads] at hk
    have hassoc : done ++ b :: todo = (done ++ [b]) ++ todo := by simp
    rw [hassoc] at hnodup ⊢
    obtain ⟨m, k', copies'', temp'', hrest, hdone⟩ := ih hnodup
      (fun c hc => htodo c (.tail _ hc)) hk
    refine ⟨n + m, k', copies'', temp'', ?_, hdone⟩
    have hpreds : g.predecessors b = f.program.preds b := congrFun h.resolves.preds b
    have hops : g.blockOperations b = first ++ (copies b ++ [last]) := by
      change g.program.code b = _
      rw [h.resolves.code, hcode]
      simp
    rw [SSA.resolveBlocks, hpreds, hops, hrun]
    simp only [hrest]

theorem deconstruct_resolving : ∃ n k copies temp,
      deconstruct f = (.ok n, k) ∧ Resolving f k (leadingPhis f) copies temp := by
  have hstart : Resolving f f (headsOf f []) (fun _ => []) fun _ => ⟨0⟩ := .refl hf
  have hnodup : ([] ++ f.blockIds).Nodup := Function.nodup_blockIds
  obtain ⟨n, k, copies, temp, hrun, hk⟩ := Resolving.resolveBlocks hf hsealed hdest hnodup
    (fun b hb => Function.mem_blockIds.mp hb) hstart
  refine ⟨n, k, copies, temp, hrun, ?_⟩
  have hheads : headsOf f ([] ++ f.blockIds) = leadingPhis f := by
    funext b
    rw [nil_append, headsOf]
    split
    · rfl
    next hb =>
      rw [Function.mem_blockIds] at hb
      rw [leadingPhis, hf.code_eq_nil hb]
      rfl
  rwa [hheads] at hk

end

/-! ### What deconstruction keeps -/

namespace Resolving

variable (h : Resolving f g heads copies temp)

include h

theorem successors (hsealed : f.Sealed) (hf : f.WellFormed) (b : BlockId) :
    g.program.successors b = f.program.successors b := by
  by_cases hb : b.index < f.blocks.size
  · obtain ⟨mid, last, hcode, hcode', hlast, -⟩ := h.resolves.split (hsealed.terminated b hb)
    have hnot : last ∉ heads b := by
      intro hmem
      rw [(h.resolves.phi b last hmem).1] at hlast
      cases hlast
    have hstmt := h.resolves.other b last (hcode ▸ by simp) hnot
    simp only [Program.successors, hcode, hcode', getLast?_append, getLast?_singleton,
      Option.some_or, hstmt]
  · have hb' : ¬b.index < g.blocks.size := by rwa [h.blocks]
    simp only [Program.successors, hf.code_eq_nil hb, h.wf.code_eq_nil hb', getLast?_nil]

theorem sealed (hsealed : f.Sealed) (hf : f.WellFormed) : g.Sealed :=
  hsealed.congr h.blocks h.resolves.preds (h.successors hsealed hf) fun _ hterm =>
    h.resolves.terminated hterm

/-- The function behaves as before. -/
theorem similar (hf : f.WellFormed) (hsealed : f.Sealed) (hs : f.program.Versioned) {ω : Type}
    {host : Host ω} {Same : ω → ω → Prop} (hb : host.Respects Same) (w : ω) (n : Nat) :
    Outcome.Similar Same (f.program.run host w n) (g.program.run host w n) := by
  -- the function with the operands of the result
  have hagrees : f.program.Agrees
      { f.program with kind := g.program.kind, ty := g.program.ty } := by
    refine ⟨rfl, rfl, fun _ _ _ => rfl, fun b id hid o ho => ?_⟩
    have hlt := hf.operand_lt hid ho
    exact ⟨h.kind o hlt, h.ty o hlt⟩
  have hres : Program.Resolves { f.program with kind := g.program.kind, ty := g.program.ty }
      g.program heads copies temp := by
    obtain ⟨h₁, h₂, h₃, h₄, h₅, h₆, h₇, h₈, h₉, h₁₀, h₁₁⟩ := h.resolves
    exact ⟨h₁, h₂, h₃, h₄, h₅, h₆, h₇, h₈, h₉, h₁₀, h₁₁⟩
  rw [← hagrees.alike.run_eq hs.terminated (fun _ _ => .inl rfl) w n]
  exact hres.similar (hagrees.versioned hs) hsealed.preds.nodup rfl rfl hb w n

/-- A phi that is left was one before, and has the same sources. -/
theorem phi_left (hid : id ∈ g.program.code b) (hphi : (g.program.stmt id).inst = .phi) :
    id ∈ f.program.code b ∧ id ∉ heads b ∧ g.program.stmt id = f.program.stmt id := by
  rcases h.resolves.mem_code_iff.mp hid with hmem | hmem
  · by_cases hhead : id ∈ heads b
    · rw [h.resolves.resolved b id hhead] at hphi
      cases hphi
    · exact ⟨hmem, hhead, h.resolves.other b id hmem hhead⟩
  · obtain ⟨c, e, -, j, s, -, -, hstmt⟩ := h.resolves.copy b id hmem
    rw [hstmt] at hphi
    cases hphi

end Resolving

/-- Where phis are in front of everything else, none is left. -/
theorem Resolving.no_phi (h : Resolving f g (leadingPhis f) copies temp)
    (hfirst : f.program.PhisFirst) (hid : id ∈ g.program.code b) :
    (g.program.stmt id).inst ≠ .phi := by
  intro hphi
  obtain ⟨hmem, hnot, hstmt⟩ := h.phi_left hid hphi
  rw [hstmt] at hphi
  obtain ⟨done, rest, hcode⟩ := append_of_mem hmem
  refine hnot ?_
  have hall : ∀ x ∈ done, isPhi f x = true := by
    simpa [isPhi] using hfirst b done id rest hcode hphi
  rw [leadingPhis, hcode, takeWhile_append_of_pos hall,
    takeWhile_cons_of_pos (by simp [isPhi, hphi])]
  simp

end SSA

end Dynarec.IR
