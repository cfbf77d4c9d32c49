import Dynarec.Guest.Block
import Dynarec.Host.Assembler
import Dynarec.Host.RegisterFile

/-!
# Failures

`CompileError` covers everything that can stop the recompilation of a block, `RunError` everything
that can stop the guest. An unknown instruction or a missing piece of code is not an error.
-/

namespace Dynarec

inductive CompileError where
  | fetch (fault : Guest.FetchFault)
  | invalidIR (reason : String)
  | blockLayout (reason : String)
  | registers (cause : Host.RegisterError)
  | codegen (reason : String)
  | encoding (cause : Host.EncodingError)
deriving DecidableEq, Repr

def CompileError.name : CompileError → String
  | fetch _ => "InstructionFetch"
  | invalidIR _ => "InvalidIr"
  | blockLayout _ => "BlockLayout"
  | registers _ => "RegisterAllocation"
  | codegen _ => "CodeGeneration"
  | encoding _ => "Encoding"

open Text in
def CompileError.message : CompileError → String
  | fetch fault =>
    "Instruction fetch failed at " ++ hex fault.address.toNat ++ ": " ++ fault.cause.message
  | invalidIR reason => "Invalid IR: " ++ reason
  | blockLayout reason => "Block layout error: " ++ reason
  | registers cause => "Register allocation failed: " ++ cause.message
  | codegen reason => "Code generation failed: " ++ reason
  | encoding cause => "Host encoding failed: " ++ cause.message

inductive RunError where
  | memory (cause : Guest.MemoryError)
  | compile (cause : CompileError)
  | arenaExhausted (requested available : Nat)
deriving DecidableEq, Repr

def RunError.name : RunError → String
  | memory _ => "MemoryFault"
  | compile cause => cause.name
  | arenaExhausted _ _ => "ArenaExhausted"

open Text in
def RunError.message : RunError → String
  | memory cause => "guest memory fault: " ++ cause.message
  | compile cause => cause.message
  | arenaExhausted requested available =>
    "executable arena exhausted: requested " ++ nat requested ++
      " bytes, largest free range is " ++ nat available ++ " bytes"

end Dynarec
