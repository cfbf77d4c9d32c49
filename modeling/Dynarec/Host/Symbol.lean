import Dynarec.Guest.Basic

/-!
# Addresses that generated code refers to

Every address of the host is loaded as an eight-byte immediate, so the size of generated code does
not depend on where things are.
-/

namespace Dynarec.Host

open Guest (AccessSize)

/-- Functions of the host that generated code calls. -/
inductive HostCall where
  | readMemory (size : AccessSize)
  | writeMemory (size : AccessSize)
  | readCounter
  | readFrequency
  | supervisorCall
  | breakpoint
  | undefinedInstruction
  | checkSynchronization
  | functionAddress
  | enqueueRejit
  | invalidateCacheLine
deriving DecidableEq, Repr

namespace HostCall

def number : HostCall → Nat
  | readMemory size => size.log2
  | writeMemory size => 4 + size.log2
  | readCounter => 8
  | readFrequency => 9
  | supervisorCall => 10
  | breakpoint => 11
  | undefinedInstruction => 12
  | checkSynchronization => 13
  | functionAddress => 14
  | enqueueRejit => 15
  | invalidateCacheLine => 16

def address (call : HostCall) : UInt64 := 0x7000000000000001 + call.number.toUInt64

def all : List HostCall :=
  [.byte, .half, .word, .double].map readMemory ++ [.byte, .half, .word, .double].map writeMemory ++
    [readCounter, readFrequency, supervisorCall, breakpoint, undefinedInstruction,
      checkSynchronization, functionAddress, enqueueRejit, invalidateCacheLine]

def ofAddress? (address : UInt64) : Option HostCall := all.find? (·.address == address)

end HostCall

def tableRoot : UInt64 := 0x7100000000000000

def slotAddress (pc : UInt64) : UInt64 := 0x7200000000000000 ||| pc

def counterAddress (serial : Nat) : UInt64 := 0x7300000000000000 + 8 * serial.toUInt64

end Dynarec.Host
