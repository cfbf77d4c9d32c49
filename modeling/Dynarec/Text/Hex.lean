/-!
# Hexadecimal and decimal text of numbers

Addresses and guest values are written as `0x` and lowercase digits without padding.
-/

namespace Dynarec.Text

/-- `0x` and the lowercase hexadecimal digits of `n`, without padding. -/
def hex (n : Nat) : String :=
  "0x" ++ String.ofList (Nat.toDigits 16 n)

/-- The two lowercase hexadecimal digits of a byte. -/
def hexByte (b : UInt8) : String :=
  String.ofList [Nat.digitChar (b.toNat / 16), Nat.digitChar (b.toNat % 16)]

def hexBytes (bytes : List UInt8) : String :=
  String.join (bytes.map hexByte)

/-- The value of `c` as a digit of `radix`. -/
def digitValue? (radix : Nat) (c : Char) : Option Nat :=
  let value? :=
    if '0' ≤ c ∧ c ≤ '9' then some (c.toNat - '0'.toNat)
    else if 'a' ≤ c ∧ c ≤ 'z' then some (c.toNat - 'a'.toNat + 10)
    else if 'A' ≤ c ∧ c ≤ 'Z' then some (c.toNat - 'A'.toNat + 10)
    else none
  value?.filter (· < radix)

/-- The bytes that hexadecimal pairs stand for; a character that is no digit counts as zero. -/
def bytesOfHex : List Char → List UInt8
  | a :: b :: rest =>
    (16 * (digitValue? 16 a).getD 0 + (digitValue? 16 b).getD 0).toUInt8 :: bytesOfHex rest
  | _ => []

/-- The number written by a non-empty digit string. -/
def digits? (radix : Nat) (cs : List Char) : Option Nat :=
  if cs.isEmpty then none
  else cs.foldlM (fun acc c => (digitValue? radix c).map (acc * radix + ·)) 0

/-- An unsigned number below `bound`: digits of `radix` after an optional plus sign. -/
def unsigned? (radix bound : Nat) (text : String) : Option Nat :=
  let digits := match text.toList with
    | '+' :: rest => rest
    | cs => cs
  (digits? radix digits).filter (· < bound)

/-- A signed number in `[-bound, bound)`: decimal digits after an optional sign. -/
def signed? (bound : Nat) (text : String) : Option Int :=
  match text.toList with
  | '-' :: rest => ((digits? 10 rest).filter (· ≤ bound)).map fun n => -(n : Int)
  | '+' :: rest => ((digits? 10 rest).filter (· < bound)).map Int.ofNat
  | cs => ((digits? 10 cs).filter (· < bound)).map Int.ofNat

end Dynarec.Text
