import Dynarec.Text.Record

/-!
# Host registers

A host register is named by a bank and a number. Bank 0 holds the sixteen general purpose
registers; a `RegSet` is a set of those.
-/

namespace Dynarec.Host

abbrev Gp := Fin 16

namespace Gp

def ax : Gp := ⟨0, by decide⟩
def cx : Gp := ⟨1, by decide⟩
def dx : Gp := ⟨2, by decide⟩
def sp : Gp := ⟨4, by decide⟩
def si : Gp := ⟨6, by decide⟩
def di : Gp := ⟨7, by decide⟩

/-- The register after this one; the first one follows the last. -/
def next (r : Gp) : Gp := if h : r.val + 1 < 16 then ⟨r.val + 1, h⟩ else ax

end Gp

structure GpMap (α : Type) where
  values : Vector α 16
deriving DecidableEq, Repr

namespace GpMap

variable {α : Type}

def replicate (a : α) : GpMap α := ⟨Vector.replicate 16 a⟩

instance [Inhabited α] : Inhabited (GpMap α) := ⟨replicate default⟩

def get (m : GpMap α) (r : Gp) : α := m.values[r]

def set (m : GpMap α) (r : Gp) (a : α) : GpMap α := ⟨m.values.set r a⟩

end GpMap

/-- A register reference; it may name a register that does not exist. -/
structure Reg where
  bank : Nat
  id : Nat
deriving DecidableEq, Repr

namespace Reg

def gp (id : Nat) : Reg := ⟨0, id⟩

/-- A reference given by two numbers, of which the low bytes count. -/
def ofNumbers (bank id : Nat) : Reg := ⟨bank % 256, id % 256⟩

def gp? (r : Reg) : Option Gp :=
  if h : r.bank = 0 ∧ r.id < 16 then some ⟨r.id, h.2⟩ else none

def rax : Reg := gp 0
def rcx : Reg := gp 1
def rdx : Reg := gp 2
def rbx : Reg := gp 3
def rsp : Reg := gp 4
def rbp : Reg := gp 5
def rsi : Reg := gp 6
def rdi : Reg := gp 7
def r8 : Reg := gp 8
def r9 : Reg := gp 9
def r10 : Reg := gp 10
def r11 : Reg := gp 11
def r12 : Reg := gp 12
def r13 : Reg := gp 13
def r14 : Reg := gp 14
def r15 : Reg := gp 15

open Text in
def text (r : Reg) : String :=
  record "AsmReg" [("bank", nat r.bank), ("id", nat r.id)]

end Reg

structure RegSet where
  mask : BitVec 16
deriving DecidableEq, Repr, Inhabited

namespace RegSet

def empty : RegSet := ⟨0⟩

def has (s : RegSet) (i : Gp) : Bool :=
  s.mask.getLsbD i

def contains (s : RegSet) (r : Reg) : Bool :=
  r.gp?.any s.has

/-- Registers outside the general purpose bank are not added. -/
def insert (s : RegSet) (r : Reg) : RegSet :=
  match r.gp? with
  | some i => ⟨s.mask ||| BitVec.twoPow 16 i⟩
  | none => s

def erase (s : RegSet) (r : Reg) : RegSet :=
  match r.gp? with
  | some i => ⟨s.mask &&& ~~~BitVec.twoPow 16 i⟩
  | none => s

def ofList (regs : List Reg) : RegSet :=
  regs.foldl insert empty

def inter (s t : RegSet) : RegSet := ⟨s.mask &&& t.mask⟩

def diff (s t : RegSet) : RegSet := ⟨s.mask &&& ~~~t.mask⟩

def members (s : RegSet) : List Gp :=
  (List.finRange 16).filter s.has

def toList (s : RegSet) : List Reg :=
  s.members.map fun i => .gp i.val

def size (s : RegSet) : Nat := s.members.length

def isEmpty (s : RegSet) : Bool := s.mask == 0

end RegSet

end Dynarec.Host
