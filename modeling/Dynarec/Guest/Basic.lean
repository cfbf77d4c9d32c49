/-!
# Guest vocabulary

Instruction set states, condition codes, access sizes and shifts shared by both instruction sets,
and the bit fields of an instruction word.
-/

namespace Dynarec.Guest

/-- Instruction set of the guest. -/
inductive Mode where
  | a64
  | a32
deriving DecidableEq, Repr, Inhabited

def Mode.is64 : Mode → Bool
  | .a64 => true
  | .a32 => false

def Mode.name : Mode → String
  | .a64 => "a64"
  | .a32 => "a32"

inductive Flag where
  | n | z | c | v
deriving DecidableEq, Repr

namespace Flag

def all : List Flag := [.n, .z, .c, .v]

def index : Flag → Fin 4
  | .n => 0
  | .z => 1
  | .c => 2
  | .v => 3

def name : Flag → String
  | .n => "N"
  | .z => "Z"
  | .c => "C"
  | .v => "V"

end Flag

inductive Cond where
  | eq | ne | cs | cc | mi | pl | vs | vc | hi | ls | ge | lt | gt | le | al | nv
deriving DecidableEq, Repr

namespace Cond

/-- The condition named by the low four bits. -/
def ofBits (bits : Nat) : Cond :=
  match bits % 16 with
  | 0 => eq
  | 1 => ne
  | 2 => cs
  | 3 => cc
  | 4 => mi
  | 5 => pl
  | 6 => vs
  | 7 => vc
  | 8 => hi
  | 9 => ls
  | 10 => ge
  | 11 => lt
  | 12 => gt
  | 13 => le
  | 14 => al
  | _ => nv

/-- The condition encoded next to `c`; except for `al` and `nv` it has the opposite outcome. -/
def invert : Cond → Cond
  | eq => ne
  | ne => eq
  | cs => cc
  | cc => cs
  | mi => pl
  | pl => mi
  | vs => vc
  | vc => vs
  | hi => ls
  | ls => hi
  | ge => lt
  | lt => ge
  | gt => le
  | le => gt
  | al => nv
  | nv => al

/-- Whether the condition holds for the given flags. -/
def holds (cond : Cond) (n z c v : Bool) : Bool :=
  match cond with
  | eq => z
  | ne => !z
  | cs => c
  | cc => !c
  | mi => n
  | pl => !n
  | vs => v
  | vc => !v
  | hi => c && !z
  | ls => !(c && !z)
  | ge => n == v
  | lt => n != v
  | gt => !z && n == v
  | le => !(!z && n == v)
  | al | nv => true

/-- Whether the condition holds for a flag nibble with N in bit 3. -/
def holdsNibble (cond : Cond) (nzcv : Nat) : Bool :=
  cond.holds (nzcv.testBit 3) (nzcv.testBit 2) (nzcv.testBit 1) (nzcv.testBit 0)

def isAlways : Cond → Bool
  | al | nv => true
  | _ => false

def name : Cond → String
  | eq => "Eq"
  | ne => "Ne"
  | cs => "Cs"
  | cc => "Cc"
  | mi => "Mi"
  | pl => "Pl"
  | vs => "Vs"
  | vc => "Vc"
  | hi => "Hi"
  | ls => "Ls"
  | ge => "Ge"
  | lt => "Lt"
  | gt => "Gt"
  | le => "Le"
  | al => "Al"
  | nv => "Nv"

end Cond

/-- Number of bytes moved by one memory access. -/
inductive AccessSize where
  | byte | half | word | double
deriving DecidableEq, Repr

namespace AccessSize

/-- The size with the given binary logarithm; everything above two is a double word. -/
def ofLog2 : Nat → AccessSize
  | 0 => byte
  | 1 => half
  | 2 => word
  | _ => double

def log2 : AccessSize → Nat
  | byte => 0
  | half => 1
  | word => 2
  | double => 3

def bytes (size : AccessSize) : Nat :=
  1 <<< size.log2

def name : AccessSize → String
  | byte => "Byte"
  | half => "Half"
  | word => "Word"
  | double => "Double"

end AccessSize

/-- Shift of a register operand. -/
inductive Shift where
  | lsl | lsr | asr | ror
deriving DecidableEq, Repr

namespace Shift

/-- The shift named by the low two bits. -/
def ofBits (bits : Nat) : Shift :=
  match bits % 4 with
  | 0 => lsl
  | 1 => lsr
  | 2 => asr
  | _ => ror

def name : Shift → String
  | lsl => "Lsl"
  | lsr => "Lsr"
  | asr => "Asr"
  | ror => "Ror"

end Shift

/-- Bits `hi` down to `lo` of an instruction word. -/
def bits (word : UInt32) (hi lo : Nat) : Nat :=
  (word.toNat >>> lo) % 1 <<< (hi + 1 - lo)

/-- Bit `n` of an instruction word. -/
def bit (word : UInt32) (n : Nat) : Bool :=
  word.toNat.testBit n

theorem bits_lt (word : UInt32) (hi lo : Nat) : bits word hi lo < 1 <<< (hi + 1 - lo) :=
  Nat.mod_lt _ (by rw [Nat.one_shiftLeft]; exact Nat.two_pow_pos _)

/-- The value of `width` bits read as a two's complement number. -/
def signed (value width : Nat) : Int :=
  if value.testBit (width - 1) then (value : Int) - (1 <<< width : Nat) else value

/-- An address displaced by a signed number of bytes, modulo `2 ^ 64`. -/
def displace (address : UInt64) (offset : Int) : UInt64 :=
  address + UInt64.ofInt offset

end Dynarec.Guest
