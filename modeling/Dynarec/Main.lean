import Dynarec.Runner.Run

/-!
# The command

Reads the command line, the image and the environment, and writes what the program has written.
-/

namespace Dynarec.Runner

def usage : String :=
  "Usage: dynarec [OPTIONS] <IMAGE>\n\n" ++
    "  -m, --mode <a64|a32>     Guest instruction set\n" ++
    "      --base <ADDRESS>     Load address of the image\n" ++
    "      --entry <ADDRESS>    Entry point\n" ++
    "      --stack-top <ADDRESS>  Initial stack pointer\n" ++
    "      --stack-size <BYTES>   Stack size\n" ++
    "      --no-tier            Compile with optimization at once\n" ++
    "      --max-block <COUNT>  Greatest number of instructions in a block\n" ++
    "      --stats              Print statistics at the end\n"

/-- More steps than any run takes. -/
def unbounded : Nat := 1 <<< 60

/-- The settings found in the environment. -/
def environment : IO (List (String × String)) :=
  Config.settingNames.filterMapM fun name => do
    return (← IO.getEnv name).map fun value => (name, value)

/-- Run the image that the arguments name; the exit code. -/
def runImage (args : Arguments) : IO UInt32 := do
  let image ← IO.FS.readBinFile args.image
  let settings ← environment
  match run unbounded args image.data (fun name => settings.lookup name) with
  | none => return 1
  | some outcome =>
    let stdout ← IO.getStdout
    stdout.write ⟨outcome.stdout⟩
    stdout.flush
    let stderr ← IO.getStderr
    stderr.write ⟨outcome.stderr⟩
    return outcome.exitCode &&& 0xff

end Dynarec.Runner

open Dynarec.Runner in
def main (words : List String) : IO UInt32 := do
  match Arguments.parse words with
  | none =>
    IO.eprint usage
    return 2
  | some args =>
    try runImage args
    catch e =>
      IO.eprintln ("Error: " ++ toString e)
      return 1
