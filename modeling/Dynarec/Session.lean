import Dynarec.Text.Record

/-!
# Statistics of one recompilation
-/

namespace Dynarec

/-- What happened while one block was compiled. -/
structure Session where
  guestInstructions : Nat := 0
  guestBytes : Nat := 0
  operationsBuilt : Nat := 0
  operationsOptimized : Nat := 0
  optimizerRounds : Nat := 0
  phiCopies : Nat := 0
  spillStores : Nat := 0
  nativeCalls : Nat := 0
  hostBytes : Nat := 0
deriving DecidableEq, Repr, Inhabited

namespace Session

def guestBlock (s : Session) (instructions bytes : Nat) : Session :=
  { s with
    guestInstructions := s.guestInstructions + instructions
    guestBytes := s.guestBytes + bytes }

def irBuilt (s : Session) (operations : Nat) : Session :=
  { s with operationsBuilt := s.operationsBuilt + operations }

/-- An optimizer round that left this many operations. -/
def optimizerRound (s : Session) (operations : Nat) : Session :=
  { s with optimizerRounds := s.optimizerRounds + 1, operationsOptimized := operations }

def phiCopy (s : Session) : Session := { s with phiCopies := s.phiCopies + 1 }

def spillStore (s : Session) : Session := { s with spillStores := s.spillStores + 1 }

def nativeCall (s : Session) : Session := { s with nativeCalls := s.nativeCalls + 1 }

def hostCode (s : Session) (bytes : Nat) : Session := { s with hostBytes := s.hostBytes + bytes }

open Text in
def text (s : Session) : String :=
  String.join <| List.map (· ++ "\n") [
    "Translation Session Statistics:",
    "  Guest instructions: " ++ nat s.guestInstructions ++ " (" ++ nat s.guestBytes ++ " bytes)",
    "  IR operations: " ++ nat s.operationsBuilt ++ " built, " ++ nat s.operationsOptimized ++
      " after " ++ nat s.optimizerRounds ++ " optimizer rounds",
    "  Phi copies: " ++ nat s.phiCopies,
    "  Spill stores: " ++ nat s.spillStores,
    "  Native calls: " ++ nat s.nativeCalls,
    "  Host code size: " ++ nat s.hostBytes ++ " bytes"]

end Session

end Dynarec
