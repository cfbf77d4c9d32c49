/-!
# Logical immediates

A logical immediate is an element of 2 to 64 bits, a rotated run of ones, repeated over the
register. The fields `n` and `imms` give the element size and the length of the run, `immr` the
rotation.
-/

namespace Dynarec.Guest.A64

/-- Right rotation of the low `size` bits of `value`. -/
def rotateElement (size value amount : Nat) : Nat :=
  (value >>> amount ||| value <<< (size - amount)) % 1 <<< size

/-- The element repeated at every multiple of `size` below `width`. -/
def replicateElement (size element width : Nat) : Nat :=
  (List.range ((width + size - 1) / size)).foldl (fun acc i => acc ||| element <<< (i * size)) 0

/-- The immediate of a `width`-bit logical instruction, if the fields encode one. -/
def decodeBitMask? (n : Bool) (imms immr width : Nat) : Option UInt64 :=
  let combined := n.toNat * 64 + (63 - imms % 64)
  let size := 1 <<< combined.log2
  let ones := imms % size + 1
  if combined < 2 ∨ width < size ∨ ones = size then none
  else
    let element := rotateElement size (1 <<< ones - 1) (immr % size)
    let value := replicateElement size element width
    some (UInt64.ofNat (if width = 32 then value % UInt32.size else value))

end Dynarec.Guest.A64
