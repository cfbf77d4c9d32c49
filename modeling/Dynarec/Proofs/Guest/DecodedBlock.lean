import Dynarec.Guest.Block
import Dynarec.Proofs.Guest.MemoryBytes

/-!
# Decoded blocks

Decoding asks its source for one word after the other. As long as the answers do not depend on what
was asked before, the block is a run of consecutive readable words that ends for one of four
reasons.
-/

namespace Dynarec.Guest

variable {σ : Type}

/-- In the states `S` the source gives the words of `word?` and the entries of `entry`, and it stays
in these states. -/
structure CodeSource.Reads (source : CodeSource σ) (S : σ → Prop)
    (word? : UInt64 → Except MemoryError UInt32) (entry : UInt64 → Bool) : Prop where
  fetch : ∀ a s, S s → (source.fetch a s).1 = word? a ∧ S (source.fetch a s).2
  isEntry : ∀ a s, S s → source.isEntry a s = entry a

/-- How a block goes on at an address where it may have so many more instructions. -/
inductive Follows (mode : Mode) (word? : UInt64 → Except MemoryError UInt32)
    (entry : UInt64 → Bool) : Nat → UInt64 → List Opcode → BlockEnd → Prop
  | limit (a : UInt64) : Follows mode word? entry 0 a [] .instructionLimit
  | entry {room : Nat} {a : UInt64} (h : entry a = true) :
      Follows mode word? entry (room + 1) a [] .knownEntry
  | fault {room : Nat} {a : UInt64} {e : MemoryError} (h : entry a = false)
      (hword : word? a = .error e) : Follows mode word? entry (room + 1) a [] .fetchFault
  | last {room : Nat} {a : UInt64} {w : UInt32} (h : entry a = false) (hword : word? a = .ok w)
      (hterminal : (Opcode.decode mode a w).instr.isTerminal = true) :
      Follows mode word? entry (room + 1) a [Opcode.decode mode a w] .controlFlow
  | next {room : Nat} {a : UInt64} {w : UInt32} {ops : List Opcode} {reason : BlockEnd}
      (h : entry a = false) (hword : word? a = .ok w)
      (hterminal : (Opcode.decode mode a w).instr.isTerminal = false)
      (hrest : Follows mode word? entry room (a + 4) ops reason) :
      Follows mode word? entry (room + 1) a (Opcode.decode mode a w :: ops) reason

/-- The address of the instruction with number `i` of a run that starts at `a`. -/
def addressAt (a : UInt64) (i : Nat) : UInt64 := a + (4 * i).toUInt64

@[simp] theorem addressAt_zero (a : UInt64) : addressAt a 0 = a := by
  simp [addressAt]

theorem addressAt_succ (a : UInt64) (i : Nat) : addressAt a (i + 1) = addressAt (a + 4) i := by
  unfold addressAt
  have hsum : (4 * (i + 1)).toUInt64 = 4 + (4 * i).toUInt64 := by
    rw [Nat.mul_succ, Nat.add_comm]
    exact UInt64.ofNat_add 4 (4 * i)
  rw [hsum, UInt64.add_assoc]

/-- Addresses of a run do not wrap around as long as each instruction ends inside the address
space. -/
theorem toNat_addressAt {a : UInt64} {i : Nat}
    (h : ∀ j < i, (addressAt a j).toNat + 4 < UInt64.size) :
    (addressAt a i).toNat = a.toNat + 4 * i := by
  induction i generalizing a with
  | zero => simp
  | succ i ih =>
    have hstart : (a + 4).toNat = a.toNat + 4 := by
      have hzero := h 0 (Nat.succ_pos i)
      rw [addressAt_zero] at hzero
      exact Nat.mod_eq_of_lt hzero
    rw [addressAt_succ, ih fun j hj => ?_]
    · omega
    · rw [← addressAt_succ]
      exact h (j + 1) (Nat.succ_lt_succ hj)

/-- The instructions are those of the words at consecutive addresses. -/
def WordsAt (mode : Mode) (word? : UInt64 → Except MemoryError UInt32) (a : UInt64)
    (ops : List Opcode) : Prop :=
  ∀ i op, ops[i]? = some op →
    ∃ w, word? (addressAt a i) = .ok w ∧ op = Opcode.decode mode (addressAt a i) w

namespace WordsAt

variable {mode : Mode} {word? : UInt64 → Except MemoryError UInt32} {a : UInt64}

theorem nil : WordsAt mode word? a [] := by
  intro i op hop
  simp at hop

theorem cons {w : UInt32} {ops : List Opcode} (hword : word? a = .ok w)
    (hrest : WordsAt mode word? (a + 4) ops) :
    WordsAt mode word? a (Opcode.decode mode a w :: ops) := by
  rintro (_ | i) op hop
  · obtain rfl := Option.some.inj hop
    exact ⟨w, by simpa using hword, by simp⟩
  · rw [addressAt_succ]
    exact hrest i op hop

end WordsAt

namespace Follows

variable {mode : Mode} {word? : UInt64 → Except MemoryError UInt32} {entry : UInt64 → Bool}
  {room : Nat} {a : UInt64} {ops : List Opcode} {reason : BlockEnd}

section

variable (h : Follows mode word? entry room a ops reason)

include h

theorem length_le : ops.length ≤ room := by
  induction h with
  | limit | entry | fault => exact Nat.zero_le _
  | last => exact Nat.succ_le_succ (Nat.zero_le _)
  | next _ _ _ _ ih => exact Nat.succ_le_succ ih

theorem words : WordsAt mode word? a ops := by
  induction h with
  | limit | entry | fault => exact .nil
  | last _ hword => exact .cons hword .nil
  | next _ hword _ _ ih => exact .cons hword ih

/-- Only the first instruction may stand at a known entry, and it is not part of the rest. -/
theorem not_entry {i : Nat} (hi : i < ops.length) : entry (addressAt a i) = false := by
  induction h generalizing i with
  | limit | entry | fault => cases hi
  | last hno =>
    obtain rfl : i = 0 := Nat.lt_one_iff.mp hi
    rwa [addressAt_zero]
  | next hno _ _ _ ih =>
    cases i with
    | zero => rwa [addressAt_zero]
    | succ i =>
      rw [addressAt_succ]
      exact ih (Nat.lt_of_succ_lt_succ hi)

theorem not_terminal {i : Nat} {op : Opcode}
    (hop : ops[i]? = some op) (hi : i + 1 < ops.length) : op.instr.isTerminal = false := by
  induction h generalizing i with
  | limit | entry | fault => cases hi
  | last => exact absurd hi (by simp)
  | next _ _ hterminal _ ih =>
    cases i with
    | zero => exact Option.some.inj hop ▸ hterminal
    | succ i => exact ih hop (Nat.lt_of_succ_lt_succ hi)

end

/-- Why a run of instructions ends: the first of these reasons that there is. -/
def stop (entry : UInt64 → Bool) (room : Nat) (a : UInt64) (ops : List Opcode) : BlockEnd :=
  if ops.getLast?.any (·.instr.isTerminal) then .controlFlow
  else if ops.length = room then .instructionLimit
  else if entry (addressAt a ops.length) then .knownEntry
  else .fetchFault

theorem stop_cons {op : Opcode} (hop : op.instr.isTerminal = false) :
    stop entry (room + 1) a (op :: ops) = stop entry room (a + 4) ops := by
  have hlast : (op :: ops).getLast?.any (·.instr.isTerminal) =
      ops.getLast?.any (·.instr.isTerminal) := by
    rw [List.getLast?_cons]
    cases ops.getLast? <;> simp [hop]
  simp only [stop, hlast, List.length_cons, addressAt_succ, Nat.add_right_cancel_iff]

theorem reason_eq (h : Follows mode word? entry room a ops reason) :
    reason = stop entry room a ops ∧
      (reason = .fetchFault → ∃ e, word? (addressAt a ops.length) = .error e) := by
  induction h with
  | limit => exact ⟨by simp [stop], nofun⟩
  | entry hentry => exact ⟨by simp [stop, hentry], nofun⟩
  | @fault _ _ e hno hword => exact ⟨by simp [stop, hno], fun _ => ⟨e, by simpa using hword⟩⟩
  | last _ _ hterminal => exact ⟨by simp [stop, hterminal], nofun⟩
  | next _ _ hterminal _ ih =>
    rw [stop_cons hterminal, List.length_cons, addressAt_succ]
    exact ih

end Follows

namespace Block

variable {source : CodeSource σ} {S : σ → Prop} {word? : UInt64 → Except MemoryError UInt32}
  {entry : UInt64 → Bool} {mode : Mode}

theorem follow_follows (mode : Mode) (h : source.Reads S word? entry) (room : Nat) (a : UInt64)
    {s : σ} (hs : S s) : Follows mode word? entry room a (follow source mode room a s).1.1
      (follow source mode room a s).1.2 := by
  induction room generalizing a s with
  | zero => exact .limit a
  | succ room ih =>
    obtain ⟨hfetch, hs'⟩ := h.fetch a s hs
    have hentry := h.isEntry a s hs
    unfold follow
    split
    next hisEntry => exact .entry (hentry ▸ hisEntry)
    next hisEntry =>
      have hno : entry a = false := by
        rw [← hentry]
        simpa using hisEntry
      split
      next hf =>
        rw [hf] at hfetch
        exact .fault hno hfetch.symm
      next w s' hf =>
        rw [hf] at hfetch hs'
        dsimp only
        split
        next hterminal => exact .last hno hfetch.symm hterminal
        next hterminal =>
          exact .next hno hfetch.symm (by simpa using hterminal)
            (ih (Opcode.decode mode a w).next hs')

/-- Instructions of some words at consecutive addresses. -/
inductive Consecutive (mode : Mode) : UInt64 → List Opcode → Prop
  | nil (a : UInt64) : Consecutive mode a []
  | cons {a : UInt64} (w : UInt32) {ops : List Opcode} (hrest : Consecutive mode (a + 4) ops) :
      Consecutive mode a (Opcode.decode mode a w :: ops)

theorem Consecutive.of_mem {a : UInt64} {ops : List Opcode} (h : Consecutive mode a ops)
    {op : Opcode} (hop : op ∈ ops) : ∃ w, op = Opcode.decode mode op.address w := by
  induction h with
  | nil => cases hop
  | @cons a w ops _ ih =>
    rcases List.mem_cons.mp hop with rfl | hop
    · exact ⟨w, rfl⟩
    · exact ih hop

/-- Whatever the source answers, the instructions stand one after the other. -/
theorem follow_consecutive (source : CodeSource σ) (mode : Mode) (room : Nat) (a : UInt64) (s : σ) :
    Consecutive mode a (follow source mode room a s).1.1 := by
  induction room generalizing a s with
  | zero => exact .nil a
  | succ room ih =>
    unfold follow
    split
    · exact .nil a
    · split
      · exact .nil a
      next w s' _ =>
        dsimp only
        split
        · exact .cons w (.nil _)
        · exact .cons w (ih _ s')

theorem decode_consecutive {limit : Nat} {a : UInt64} {s s' : σ} {b : Block}
    (h : decode source mode a limit s = (.ok b, s')) :
    b.start = a ∧ Consecutive mode a b.opcodes := by
  unfold decode at h
  split at h
  · cases h
  next w t _ =>
    dsimp only at h
    split at h
    · cases h
      exact ⟨rfl, .cons w (.nil _)⟩
    · cases h
      exact ⟨rfl, .cons w (follow_consecutive source mode _ _ t)⟩

/-- What every fetch keeps is kept by decoding. -/
theorem decode_keeps {P : σ → Prop} (hfetch : ∀ a s, P s → P (source.fetch a s).2) (mode : Mode)
    (limit : Nat) (a : UInt64) {s : σ} (hs : P s) : P (decode source mode a limit s).2 := by
  have hfollow : ∀ room a s, P s → P (follow source mode room a s).2 := by
    intro room
    induction room with
    | zero => exact fun _ _ h => h
    | succ room ih =>
      intro a s hs
      have hnext := hfetch a s hs
      unfold follow
      split
      · exact hs
      · split
        next hf => rwa [hf] at hnext
        next hf =>
          rw [hf] at hnext
          dsimp only
          split
          · exact hnext
          · exact ih _ _ hnext
  have hnext := hfetch a s hs
  unfold decode
  split
  next hf => rwa [hf] at hnext
  next hf =>
    rw [hf] at hnext
    dsimp only
    split
    · exact hnext
    · exact hfollow _ _ _ hnext

/-- What decoding makes of the words at an address. -/
inductive Decoded (mode : Mode) (word? : UInt64 → Except MemoryError UInt32)
    (entry : UInt64 → Bool) (limit : Nat) (a : UInt64) : Block → Prop
  | single {w : UInt32} (hword : word? a = .ok w)
      (hterminal : (Opcode.decode mode a w).instr.isTerminal = true) :
      Decoded mode word? entry limit a ⟨a, [Opcode.decode mode a w], .controlFlow⟩
  | run {w : UInt32} {ops : List Opcode} {reason : BlockEnd} (hword : word? a = .ok w)
      (hterminal : (Opcode.decode mode a w).instr.isTerminal = false)
      (hrest : Follows mode word? entry (max 1 limit - 1) (a + 4) ops reason) :
      Decoded mode word? entry limit a ⟨a, Opcode.decode mode a w :: ops, reason⟩

theorem decode_decoded (mode : Mode) (limit : Nat) (a : UInt64)
    (h : source.Reads S word? entry) {s : σ} (hs : S s) :
    S (decode source mode a limit s).2 ∧
      match (decode source mode a limit s).1 with
      | .ok b => Decoded mode word? entry limit a b
      | .error fault => fault.address = a ∧ word? a = .error fault.cause := by
  refine ⟨decode_keeps (fun a s hs => (h.fetch a s hs).2) mode limit a hs, ?_⟩
  obtain ⟨hfetch, hs'⟩ := h.fetch a s hs
  unfold decode
  rcases hf : source.fetch a s with ⟨cause | w, s'⟩
  · rw [hf] at hfetch
    exact ⟨rfl, hfetch.symm⟩
  · rw [hf] at hfetch hs'
    have hrest := follow_follows mode h (max 1 limit - 1) (Opcode.decode mode a w).next hs'
    cases hterminal : (Opcode.decode mode a w).instr.isTerminal with
    | true => simpa [hterminal] using Decoded.single hfetch.symm hterminal
    | false => simpa [hterminal] using Decoded.run hfetch.symm hterminal hrest

namespace Decoded

variable {limit : Nat} {a : UInt64} {b : Block}

section

variable (h : Decoded mode word? entry limit a b)

include h

theorem start_eq : b.start = a := by
  cases h <;> rfl

theorem length_le : b.opcodes.length ≤ max 1 limit := by
  cases h with
  | single => exact Nat.le_max_left 1 limit
  | run _ _ hrest =>
    have hle := hrest.length_le
    simp only [List.length_cons]
    omega

theorem words : WordsAt mode word? a b.opcodes := by
  cases h with
  | single hword => exact .cons hword .nil
  | run hword _ hrest => exact .cons hword hrest.words

end

end Decoded

/-- The block covers all instructions that belong to it. -/
structure Maximal (mode : Mode) (word? : UInt64 → Except MemoryError UInt32)
    (entry : UInt64 → Bool) (limit : Nat) (a : UInt64) (b : Block) : Prop where
  start_eq : b.start = a
  limit_eq : b.limit = addressAt a b.opcodes.length
  length_pos : 0 < b.opcodes.length
  length_le : b.opcodes.length ≤ max 1 limit
  opcode : ∀ i op, b.opcodes[i]? = some op →
    ∃ w, word? (addressAt a i) = .ok w ∧ op = Opcode.decode mode (addressAt a i) w
  not_terminal : ∀ i op, b.opcodes[i]? = some op → i + 1 < b.opcodes.length →
    op.instr.isTerminal = false
  not_entry : ∀ i, 0 < i → i < b.opcodes.length → entry (addressAt a i) = false
  reason_eq : b.reason = Follows.stop entry (max 1 limit) a b.opcodes
  fault : b.reason = .fetchFault → ∃ e, word? b.limit = .error e

theorem Decoded.maximal {limit : Nat} {a : UInt64} {b : Block}
    (h : Decoded mode word? entry limit a b) : Maximal mode word? entry limit a b where
  start_eq := h.start_eq
  limit_eq := by
    rw [Block.limit, h.start_eq]
    rfl
  length_pos := by cases h <;> simp
  length_le := h.length_le
  opcode := h.words
  not_terminal i op hop hi := by
    cases h with
    | single => exact absurd hi (by simp)
    | run _ hterminal hrest =>
      cases i with
      | zero => exact Option.some.inj hop ▸ hterminal
      | succ i => exact hrest.not_terminal hop (Nat.lt_of_succ_lt_succ hi)
  not_entry i hpos hi := by
    obtain ⟨i, rfl⟩ := Nat.exists_eq_succ_of_ne_zero (Nat.ne_of_gt hpos)
    rw [addressAt_succ]
    cases h with
    | single => exact absurd hi (by simp)
    | run _ _ hrest => exact hrest.not_entry (Nat.lt_of_succ_lt_succ hi)
  reason_eq := by
    cases h with
    | single _ hterminal => simp [Follows.stop, hterminal]
    | run _ hterminal hrest =>
      rw [show max 1 limit = max 1 limit - 1 + 1 by omega, Follows.stop_cons hterminal]
      exact hrest.reason_eq.1
  fault hreason := by
    cases h with
    | single => cases hreason
    | run _ _ hrest =>
      rw [Block.limit, Block.size]
      have hfault := hrest.reason_eq.2 hreason
      rwa [← addressAt_succ] at hfault

/-- Decoding gives the maximal block at an address, or fails because the first word cannot be
read. -/
theorem decode_maximal (mode : Mode) (limit : Nat) (a : UInt64) (h : source.Reads S word? entry)
    {s : σ} (hs : S s) :
    match (decode source mode a limit s).1 with
    | .ok b => Maximal mode word? entry limit a b
    | .error fault => fault.address = a ∧ word? a = .error fault.cause := by
  have hdecoded := (decode_decoded mode limit a h hs).2
  split at hdecoded
  next b _ => exact hdecoded.maximal
  next => exact hdecoded

/-- Two readable words, where the block of at most eight instructions ends for want of a third. -/
theorem decode_maximal_two :
    let word? : UInt64 → Except MemoryError UInt32 := fun a =>
      if a = 0x1000 ∨ a = 0x1004 then .ok 0xd503201f else .error (.unmapped a 4)
    let source : CodeSource Unit := ⟨fun a s => (word? a, s), fun _ _ => false⟩
    source.Reads (fun _ => True) word? (fun _ => false) ∧
      (decode source .a64 0x1000 8 ()).1.toOption.map (·.reason) = some .fetchFault ∧
      match (decode source .a64 0x1000 8 ()).1 with
      | .ok b => Maximal .a64 word? (fun _ => false) 8 0x1000 b
      | .error fault => fault.address = 0x1000 ∧ word? 0x1000 = .error fault.cause := by
  intro word? source
  have hreads : source.Reads (fun _ => True) word? (fun _ => false) :=
    ⟨fun _ _ _ => ⟨rfl, trivial⟩, fun _ _ _ => rfl⟩
  exact ⟨hreads, by decide, decode_maximal .a64 8 0x1000 hreads (s := ()) trivial⟩

end Block

end Dynarec.Guest
