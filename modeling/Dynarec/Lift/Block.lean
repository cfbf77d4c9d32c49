import Dynarec.IR.Optimize
import Dynarec.Lift.A32
import Dynarec.Lift.A64
import Dynarec.Lift.Assembly

/-!
# Functions of guest blocks

A block of guest code becomes one function. Its entry counts the call, if the block is to be
compiled again when it is called often, and goes on to the body; so nothing branches to the entry.
-/

namespace Dynarec.Lift

open Guest (Block Mode Opcode)
open IR (Function Tier)

/-- How a block is compiled. -/
structure Options where
  tier : Tier
  /-- Address of the call counter, or zero. -/
  counter : UInt64
  /-- Calls after which a block is compiled again. -/
  threshold : UInt64

def code (mode : Mode) (op : Opcode) : Code :=
  match op.instr with
  | .a64 instr => (A64.lift op instr).code mode
  | .a32 instr => A32.code mode op instr

def countEntry (options : Options) (start : UInt64) : List Step :=
  if options.tier = .fast ∧ options.counter ≠ 0 then
    let sources := [options.counter, start, options.threshold].map (.const · .i64)
    sources.map .mention ++ [.perform .countCall sources]
  else []

namespace Assembly

def opcodes (a : Assembly) (mode : Mode) : List Opcode → Assembly
  | [] => a
  | op :: rest => if a.terminated then a else (a.code (Lift.code mode op)).opcodes mode rest

/-- Add the instructions of a block, in a basic block of their own. -/
def body (a : Assembly) (block : Block) (mode : Mode) : Assembly :=
  let (body, a) := a.newBlock
  let a := ((a.close (.branch body) []).switchTo body).opcodes mode block.opcodes
  if a.terminated then a else a.dispatchTo block.limit

end Assembly

def function (block : Block) (mode : Mode) (options : Options) : Function :=
  let a := (Assembly.ofAddress block.start).steps (countEntry options block.start)
  (a.body block mode).f

end Dynarec.Lift
