import Dynarec.Guest.A32.Decode
import Dynarec.Guest.A64.Decode
import Dynarec.Guest.Memory

/-!
# Basic blocks of guest code

A block is a run of consecutive instructions with a single entry. It ends after an instruction that
may transfer control, before an address that has code of its own, at the instruction limit, or
before an instruction that cannot be fetched.
-/

namespace Dynarec.Guest

/-- An instruction of either instruction set. -/
inductive Instr where
  | a64 (instr : A64.Instr)
  | a32 (instr : A32.Instr)
deriving DecidableEq, Repr

namespace Instr

def isTerminal : Instr → Bool
  | a64 i => i.isTerminal
  | a32 i => i.op.isTerminal

def branchTarget? : Instr → Option UInt64
  | a64 i => i.branchTarget?
  | a32 i => i.op.branchTarget?

def mayFallThrough : Instr → Bool
  | a64 i => i.mayFallThrough
  | a32 i => i.mayFallThrough

def text : Instr → String
  | a64 i => i.text
  | a32 i => i.text

end Instr

/-- A decoded instruction at its address. -/
structure Opcode where
  address : UInt64
  word : UInt32
  instr : Instr
deriving DecidableEq, Repr

namespace Opcode

def size : Nat := 4

def decode (mode : Mode) (address : UInt64) (word : UInt32) : Opcode :=
  let instr : Instr := match mode with
    | .a64 => .a64 (A64.decode address word)
    | .a32 => .a32 (A32.decode address word)
  ⟨address, word, instr⟩

/-- Address of the following instruction. -/
def next (op : Opcode) : UInt64 := op.address + 4

end Opcode

/-- Why a block ends. -/
inductive BlockEnd where
  | controlFlow
  | knownEntry
  | instructionLimit
  | fetchFault
deriving DecidableEq, Repr

def BlockEnd.name : BlockEnd → String
  | controlFlow => "ControlFlow"
  | knownEntry => "KnownEntry"
  | instructionLimit => "InstructionLimit"
  | fetchFault => "FetchFault"

structure Block where
  start : UInt64
  opcodes : List Opcode
  reason : BlockEnd
deriving DecidableEq, Repr

/-- A failed fetch of a block's first instruction. -/
structure FetchFault where
  address : UInt64
  cause : MemoryError
deriving DecidableEq, Repr

/-- Where instruction words come from. Fetching may change the state that it reads from. -/
structure CodeSource (σ : Type) where
  fetch : UInt64 → σ → Except MemoryError UInt32 × σ
  /-- Whether code of its own starts at the address. -/
  isEntry : UInt64 → σ → Bool

/-- A memory as a source of code, where `isEntry` tells which addresses have code of their own. -/
def Memory.codeSource (isEntry : UInt64 → Bool) : CodeSource Memory where
  fetch address m := (m.readWord address, m)
  isEntry address _ := isEntry address

namespace Block

def size (b : Block) : Nat := Opcode.size * b.opcodes.length

/-- First address past the block. -/
def limit (b : Block) : UInt64 := b.start + b.size.toUInt64

/-- The addresses at which execution may go on, without duplicates. -/
def successors (b : Block) : List UInt64 :=
  match b.opcodes.getLast? with
  | none => []
  | some last =>
    if b.reason = .controlFlow then
      let targets := last.instr.branchTarget?.toList
      if last.instr.mayFallThrough && !targets.contains b.limit then targets ++ [b.limit]
      else targets
    else [b.limit]

variable {σ : Type}

/-- The instructions from `address` on that still belong to a block, at most `room` of them. -/
def follow (source : CodeSource σ) (mode : Mode) :
    (room : Nat) → (address : UInt64) → σ → (List Opcode × BlockEnd) × σ
  | 0, _, s => (([], .instructionLimit), s)
  | room + 1, address, s =>
    if source.isEntry address s then (([], .knownEntry), s)
    else match source.fetch address s with
      | (.error _, s) => (([], .fetchFault), s)
      | (.ok word, s) =>
        let op := Opcode.decode mode address word
        if op.instr.isTerminal then (([op], .controlFlow), s)
        else
          let ((ops, reason), s) := follow source mode room op.next s
          ((op :: ops, reason), s)

/-- The block that starts at `address`, with at most `max 1 limit` instructions. -/
def decode (source : CodeSource σ) (mode : Mode) (address : UInt64) (limit : Nat) (s : σ) :
    Except FetchFault Block × σ :=
  match source.fetch address s with
  | (.error cause, s) => (.error ⟨address, cause⟩, s)
  | (.ok word, s) =>
    let op := Opcode.decode mode address word
    if op.instr.isTerminal then (.ok ⟨address, [op], .controlFlow⟩, s)
    else
      let ((ops, reason), s) := follow source mode (max 1 limit - 1) op.next s
      (.ok ⟨address, op :: ops, reason⟩, s)

end Block

end Dynarec.Guest
