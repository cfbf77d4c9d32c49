import Dynarec.Machine.Execute
import Dynarec.Runner.Arguments
import Dynarec.Runner.SystemCall
import Dynarec.Text.Utf8

/-!
# Running a guest program

The image is loaded at its base with a writable stack below the stack top, and runs until it exits
or fails.
-/

namespace Dynarec.Runner

open Guest (Memory)

structure Outcome where
  exitCode : UInt32
  stdout : Array UInt8
  stderr : Array UInt8
deriving DecidableEq, Repr

/-- An outcome with one more line on the error stream. -/
def Outcome.complain (o : Outcome) (line : String) : Outcome :=
  { o with stderr := o.stderr ++ (line ++ "\n").toUTF8.data }

def Outcome.complaints (o : Outcome) : String := Text.ofUtf8 o.stderr.toList

def failed (console : Console) (e : RunError) : Outcome :=
  Outcome.complain ⟨1, console.stdout, console.stderr⟩ ("Error: " ++ e.message)

/-- The image and the stack. A stack that overlaps the image takes its place. -/
def load (args : Arguments) (image : Array UInt8) : Memory :=
  let stackBase := (args.stackTop.toNat - args.stackSize.toNat).toUInt64
  (Memory.empty.map args.base image true).mapZero stackBase args.stackSize.toNat true

def config (args : Arguments) (lookup : String → Option String) : Config :=
  let c := { Config.ofEnvironment lookup with mode := args.mode }
  let c := if args.noTier then c.withTiered false else c
  match args.maxBlock with
  | some n => c.withMaxBlock n
  | none => c

/-- The counter frequency of a program. -/
def clock : Clock := ⟨0, 1, 19200000⟩

def start (args : Arguments) (image : Array UInt8) (lookup : String → Option String) :
    Except RunError (Machine Console) := do
  let memory := (load args image).subscribe
  let m ← Machine.ofConfig (config args lookup) memory clock {}
  let (_, table) := m.recompiler.table.prepare args.base image.size.toUInt64
  return (m.mapRecompiler (·.setTable table)).mapThread (·.setSp args.stackTop)

/-- Run a program. `lookup` finds settings of the environment. -/
def run (fuel : Nat) (args : Arguments) (image : Array UInt8) (lookup : String → Option String) :
    Option Outcome :=
  match start args image lookup with
  | .error e => some (failed {} e)
  | .ok m =>
    (m.execute (.ofCalls systemCall) fuel (args.entry.getD args.base)).map fun
      | (.error e, m) => failed m.state e
      | (.ok (), m) =>
        let outcome : Outcome := ⟨m.state.exitCode.toUInt32, m.state.stdout, m.state.stderr⟩
        if args.stats then outcome.complain m.recompiler.stats.text else outcome

end Dynarec.Runner
