import Dynarec.Host.Register

/-!
# Register ownership

Which local owns which host register while a block is lowered. A register that is read or written
by the operation at hand is locked; when no register is free the next unlocked one in round-robin
order is taken from its owner.
-/

namespace Dynarec.Host

inductive RegisterError where
  | exhausted
  | notAllocatable (reg : Reg)
  | unowned (reg : Reg)
  | unbalancedUnlock (reg : Reg)
deriving DecidableEq, Repr

def RegisterError.name : RegisterError → String
  | exhausted => "Exhausted"
  | notAllocatable _ => "NotAllocatable"
  | unowned _ => "Unowned"
  | unbalancedUnlock _ => "UnbalancedUnlock"

def RegisterError.message : RegisterError → String
  | exhausted => "every allocatable register is locked"
  | notAllocatable reg => reg.text ++ " is not an allocatable register"
  | unowned reg => reg.text ++ " has no owner"
  | unbalancedUnlock reg => reg.text ++ " unlocked more often than locked"

/-- Greatest lock count; further locks do not raise it. -/
def maxLocks : Nat := 255

structure RegisterFile where
  allocatable : RegSet
  owned : RegSet
  owners : GpMap (Option Nat)
  locks : GpMap Nat
  /-- The register the next eviction scan starts at. -/
  hand : Gp
deriving Inhabited

namespace RegisterFile

def ofSet (allocatable : RegSet) : RegisterFile where
  allocatable
  owned := .empty
  owners := .replicate none
  locks := .replicate 0
  hand := Gp.ax

/-- Forget every owner and lock and return the hand to register 0. -/
def reset (f : RegisterFile) : RegisterFile :=
  ofSet f.allocatable

def assign (f : RegisterFile) (i : Gp) (local_ : Nat) : RegisterFile :=
  { f with
    owned := f.owned.insert (.gp i.val)
    owners := f.owners.set i (some local_)
    locks := f.locks.set i 0 }

def disown (f : RegisterFile) (i : Gp) : RegisterFile :=
  { f with
    owned := f.owned.erase (.gp i.val)
    owners := f.owners.set i none
    locks := f.locks.set i 0 }

def isVictim (f : RegisterFile) (i : Gp) : Bool :=
  f.owned.has i && f.locks.get i == 0

/-- The registers in scan order: from the hand upwards, wrapping around. -/
def scanOrder (hand : Gp) : List Gp :=
  (List.finRange 16).map (hand + ·)

def victim? (f : RegisterFile) : Option Gp :=
  (scanOrder f.hand).find? f.isVictim

/-- A register for `local_`, with the local that had to give it up. Free registers are handed out
lowest first. -/
def allocate (f : RegisterFile) (local_ : Nat) :
    Except RegisterError ((Reg × Option Nat) × RegisterFile) :=
  match (f.allocatable.diff f.owned).members.head? with
  | some i => .ok ((.gp i.val, none), f.assign i local_)
  | none =>
    match f.victim? with
    | some i => .ok ((.gp i.val, f.owners.get i), { f.assign i local_ with hand := i.next })
    | none => .error .exhausted

/-- Take a register from its owner. -/
def release (f : RegisterFile) (r : Reg) : Except RegisterError RegisterFile :=
  if !f.allocatable.contains r then .error (.notAllocatable r)
  else match r.gp?.filter f.owned.has with
    | some i => .ok (f.disown i)
    | none => .error (.unowned r)

/-- Lock an owned register once more. -/
def lock (f : RegisterFile) (r : Reg) : Except RegisterError RegisterFile :=
  match r.gp?.filter f.owned.has with
  | some i => .ok { f with locks := f.locks.set i (min (f.locks.get i + 1) maxLocks) }
  | none => .error (.unowned r)

def unlock (f : RegisterFile) (r : Reg) : Except RegisterError RegisterFile :=
  match r.gp?.filter f.owned.has with
  | some i =>
    if f.locks.get i = 0 then .error (.unbalancedUnlock r)
    else .ok { f with locks := f.locks.set i (f.locks.get i - 1) }
  | none => .error (.unowned r)

def unlockAll (f : RegisterFile) : RegisterFile :=
  { f with locks := .replicate 0 }

def isLocked (f : RegisterFile) (r : Reg) : Bool :=
  (r.gp?.filter f.owned.has).any fun i => f.locks.get i != 0

def owner? (f : RegisterFile) (r : Reg) : Option Nat :=
  (r.gp?.filter f.owned.has).bind fun i => f.owners.get i

/-- The lowest register that holds `local_`. -/
def holder? (f : RegisterFile) (local_ : Nat) : Option Reg :=
  (f.owned.members.find? fun i => f.owners.get i == some local_).map fun i => .gp i.val

/-- The owned registers of `set` with their owners. -/
def ownedIn (f : RegisterFile) (set : RegSet) : List (Reg × Nat) :=
  (f.owned.inter set).members.filterMap fun i => (f.owners.get i).map fun local_ =>
    (.gp i.val, local_)

def occupancy (f : RegisterFile) : Nat := f.owned.size

end RegisterFile

end Dynarec.Host
