import Dynarec.IR.Basic

/-!
# Values of pure instructions

The result of an instruction that neither reads nor writes anything but its operands. Sources are
taken as they are, whatever their type; results are cut to the result type.
-/

namespace Dynarec.IR

namespace Value

def mulHighSigned (a b : UInt64) : UInt64 :=
  UInt64.ofInt ((a.toInt64.toInt * b.toInt64.toInt) / UInt64.size)

def mulHighUnsigned (a b : UInt64) : UInt64 :=
  UInt64.ofNat (a.toNat * b.toNat / UInt64.size)

/-- Signed quotient, rounded toward zero. Division by zero gives zero, and the one quotient that is
too large wraps around. -/
def divideSigned (ty : Ty) (a b : UInt64) : UInt64 :=
  UInt64.ofInt (Int.tdiv (ty.signed a) (ty.signed b))

/-- Unsigned quotient. Division by zero gives zero. -/
def divideUnsigned (ty : Ty) (a b : UInt64) : UInt64 :=
  (a &&& ty.mask) / (b &&& ty.mask)

/-- Shift amounts are taken modulo the width. -/
def amount (ty : Ty) (v : UInt64) : Nat := v.toNat % ty.bits

def shiftLeft (ty : Ty) (a b : UInt64) : UInt64 := a <<< (amount ty b).toUInt64

def shiftRightLogical (ty : Ty) (a b : UInt64) : UInt64 :=
  (a &&& ty.mask) >>> (amount ty b).toUInt64

def shiftRightArithmetic (ty : Ty) (a b : UInt64) : UInt64 :=
  UInt64.ofInt (ty.signed a >>> amount ty b)

def rotateRight (ty : Ty) (a b : UInt64) : UInt64 :=
  match ty with
  | .i32 => UInt64.ofNat ((BitVec.ofNat 32 a.toNat).rotateRight (amount ty b)).toNat
  | .i64 => UInt64.ofBitVec (a.toBitVec.rotateRight (amount ty b))

def countLeadingZeros (ty : Ty) (a : UInt64) : UInt64 :=
  let v := (a &&& ty.mask).toNat
  UInt64.ofNat (if v = 0 then ty.bits else ty.bits - 1 - v.log2)

def byte (a : UInt64) (i : Nat) : UInt64 := (a >>> (8 * i).toUInt64) &&& 0xff

/-- The bytes of a value of the type in the opposite order. -/
def byteSwap (ty : Ty) (a : UInt64) : UInt64 :=
  let n := ty.bits / 8
  (List.range n).foldl (fun acc i => acc <<< 8 ||| byte a i) 0

def signExtend8 (a : UInt64) : UInt64 := a.toUInt8.toInt8.toInt64.toUInt64

def signExtend16 (a : UInt64) : UInt64 := a.toUInt16.toInt16.toInt64.toUInt64

def signExtend32 (a : UInt64) : UInt64 := a.toUInt32.toInt32.toInt64.toUInt64

end Value

open Value in
/-- The result of a pure instruction, where missing sources are zero. The comparisons read their
sources in `sourceTy`. Instructions that are not pure have no value. -/
def Instruction.evaluate? (inst : Instruction) (ty sourceTy : Ty) (args : List UInt64) :
    Option UInt64 :=
  let a := args.getD 0 0
  let b := args.getD 1 0
  let c := args.getD 2 0
  let value? : Option UInt64 := match inst with
    | add => some (a + b)
    | subtract => some (a - b)
    | multiply => some (a * b)
    | multiplyHighSigned => some (mulHighSigned a b)
    | multiplyHighUnsigned => some (mulHighUnsigned a b)
    | divideSigned => some (Value.divideSigned ty a b)
    | divideUnsigned => some (Value.divideUnsigned ty a b)
    | and => some (a &&& b)
    | or => some (a ||| b)
    | xor => some (a ^^^ b)
    | not => some (~~~a)
    | negate => some (-a)
    | shiftLeft => some (Value.shiftLeft ty a b)
    | shiftRightLogical => some (Value.shiftRightLogical ty a b)
    | shiftRightArithmetic => some (Value.shiftRightArithmetic ty a b)
    | rotateRight => some (Value.rotateRight ty a b)
    | countLeadingZeros => some (Value.countLeadingZeros ty a)
    | byteSwap => some (Value.byteSwap ty a)
    | compare cmp => some (if cmp.holds sourceTy a b then 1 else 0)
    | select => some (if a != 0 then b else c)
    | zeroExtend8 => some (a &&& 0xff)
    | zeroExtend16 => some (a &&& 0xffff)
    | zeroExtend32 | truncate => some (a &&& 0xffffffff)
    | signExtend8 => some (Value.signExtend8 a)
    | signExtend16 => some (Value.signExtend16 a)
    | signExtend32 => some (Value.signExtend32 a)
    | _ => none
  value?.map (· &&& ty.mask)

end Dynarec.IR
