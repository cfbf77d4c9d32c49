import Dynarec.Host.RegisterFile

/-!
# Roles of the host registers

Generated code keeps the guest context in one register for the whole run, computes in three scratch
registers, and leaves the rest to register allocation. Calls into the host follow the System V
convention.
-/

namespace Dynarec.Host

/-- Holds the address of the guest context. -/
def contextReg : Reg := .r15

def scratchRegs : List Reg := [.rax, .rcx, .rdx]

def returnReg : Reg := .rax

def allocatableRegs : List Reg :=
  [.rbx, .rbp, .r12, .r13, .r14, .rsi, .rdi, .r8, .r9, .r10, .r11]

/-- Saved by the entry code for its caller. -/
def calleeSavedRegs : List Reg := [.rbx, .rbp, .r12, .r13, .r14, .r15]

/-- Allocatable registers that a host call may overwrite. -/
def callerSavedRegs : List Reg := [.rsi, .rdi, .r8, .r9, .r10, .r11]

def allocatableSet : RegSet := .ofList allocatableRegs

def callerSavedSet : RegSet := .ofList callerSavedRegs

/-- Stack frame of a generated function: one slot for each local, above the stack pointer. -/
structure Frame where
  locals : Nat
deriving DecidableEq, Repr

namespace Frame

/-- Bytes taken by the frame. With the return address they make a multiple of sixteen. -/
def size (f : Frame) : Nat := (f.locals * 8 + 15) / 16 * 16 + 8

/-- Offset of a local's slot from the stack pointer. -/
def slotOffset (_ : Frame) (local_ : Nat) : Nat := local_ * 8

end Frame

end Dynarec.Host
