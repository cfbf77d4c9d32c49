import Dynarec.Guest.A32.Instr

/-!
# A32 instruction words

`decode` reads an instruction word at an address. Words outside the supported subset, and encodings
with unpredictable results, decode to `Op.undefined`.
-/

namespace Dynarec.Guest.A32

/-- The register number in the four bits from `lo`. -/
def regAt (w : UInt32) (lo : Nat) : Reg :=
  .ofBits (bits w (lo + 3) lo)

/-- Operations outside the conditional space: preloads and barriers do nothing. -/
def decodeUnconditional (w : UInt32) : Op :=
  let group := bits w 27 24
  let preload := (group = 0b0101 || group = 0b0111) && bits w 21 20 = 0b01
  let barrier := bits w 27 8 = 0x57ff0
  if preload || barrier then .nop else .undefined

/-- Shift amounts of zero mean 32 for right shifts and a rotation through carry for `ror`. -/
def decodeShift (w : UInt32) : ImmShift :=
  let amount := bits w 11 7
  match Shift.ofBits (bits w 6 5) with
  | .lsl => .imm .lsl amount
  | .lsr => .imm .lsr (if amount = 0 then 32 else amount)
  | .asr => .imm .asr (if amount = 0 then 32 else amount)
  | .ror => if amount = 0 then .rrx else .imm .ror amount

/-- A flag-setting write to the program counter is an exception return. -/
def decodeDataProcessing (w : UInt32) (operand : ShifterOperand) : Option Op :=
  let opcode := DataOp.ofBits (bits w 24 21)
  let setFlags := bit w 20
  let rd := regAt w 12
  if opcode.isTest && !setFlags then none
  else if rd = pc && setFlags && !opcode.isTest then none
  else some (.dataProcessing opcode setFlags rd (regAt w 16) operand)

def decodeMisc (w : UInt32) : Option Op :=
  let rm := regAt w 0
  let rd := regAt w 12
  match bits w 7 4, bits w 22 21 with
  | 0b0001, 0b01 => some (.branchExchange false rm)
  | 0b0011, 0b01 => if rm = pc then none else some (.branchExchange true rm)
  | 0b0001, 0b11 => if rm = pc || rd = pc then none else some (.countLeadingZeros rd rm)
  | 0b0111, 0b01 => some (.bkpt (bits w 19 8 * 16 + bits w 3 0))
  | _, _ => none

def decodeMultiply (w : UInt32) : Option Op :=
  let setFlags := bit w 20
  let hi := regAt w 16
  let lo := regAt w 12
  let rm := regAt w 8
  let rn := regAt w 0
  let long (signed accumulate : Bool) : Option Op :=
    if lo = pc || lo = hi then none
    else some (.multiplyLong signed accumulate setFlags lo hi rn rm)
  if bits w 27 24 != 0 || hi = pc || rm = pc || rn = pc then none
  else match bits w 23 21 with
    | 0b000 => some (.multiply false setFlags hi rn rm (.ofBits 0))
    | 0b001 => if lo = pc then none else some (.multiply true setFlags hi rn rm lo)
    | 0b100 => long false false
    | 0b101 => long false true
    | 0b110 => long true false
    | 0b111 => long true true
    | _ => none

def decodeLoadStoreExtra (w : UInt32) : Option Op := do
  let preIndex := bit w 24
  let write := bit w 21
  let load := bit w 20
  let rn := regAt w 16
  let rt := regAt w 12
  let kind ← match load, bits w 6 5 with
    | _, 0b01 => some ExtraKind.half
    | true, 0b10 => some .signedByte
    | true, 0b11 => some .signedHalf
    | _, _ => none
  let writeback := !preIndex || write
  if (!preIndex && write) || rt = pc || (writeback && rn = pc) then none
  let offset ←
    if bit w 22 then some (Offset.imm (bits w 11 8 * 16 + bits w 3 0))
    else if bits w 11 8 != 0 || regAt w 0 = pc then none
    else some (.reg ⟨regAt w 0, .imm .lsl 0⟩)
  return .loadStoreExtra load kind rt rn offset ⟨bit w 23, preIndex, writeback⟩

def decodeLoadStore (w : UInt32) (offset : Offset) : Option Op :=
  let preIndex := bit w 24
  let byte := bit w 22
  let rn := regAt w 16
  let rt := regAt w 12
  let writeback := !preIndex || bit w 21
  if (writeback && rn = pc) || (byte && rt = pc) then none
  else some (.loadStore (bit w 20) (if byte then .byte else .word) rt rn offset
    ⟨bit w 23, preIndex, writeback⟩)

def decodeLoadStoreMultiple (w : UInt32) : Option Op :=
  let registers := bits w 15 0
  let rn := regAt w 16
  let mode : BlockMode := match bit w 24, bit w 23 with
    | false, true => .incrementAfter
    | true, true => .incrementBefore
    | false, false => .decrementAfter
    | true, false => .decrementBefore
  if bit w 22 || registers = 0 || rn = pc then none
  else some (.loadStoreMultiple (bit w 20) rn registers mode (bit w 21))

def decodeCoprocessor (w : UInt32) : Option Op :=
  let rt := regAt w 12
  if bits w 23 21 != 0 || bits w 19 16 != 13 || bits w 3 0 != 0 || rt = pc then none
  else match bits w 7 5, bit w 20 with
    | 2, true => some (.readCoprocessor rt .tpidrUrw)
    | 3, true => some (.readCoprocessor rt .tpidrUro)
    | 2, false => some (.writeCoprocessor rt .tpidrUrw)
    | _, _ => none

/-- Targets are relative to the address of the instruction plus eight, modulo `2 ^ 32`. -/
def branchTarget (address : UInt64) (w : UInt32) : UInt64 :=
  displace address (8 + signed (bits w 23 0) 24 * 4) &&& 0xffffffff

def decodeConditional (address : UInt64) (w : UInt32) : Option Op :=
  match bits w 27 25 with
  | 0b000 =>
    if bit w 4 && bit w 7 then
      if bits w 6 5 = 0 then decodeMultiply w else decodeLoadStoreExtra w
    else if bits w 24 23 = 0b10 && !bit w 20 then decodeMisc w
    else if bit w 4 then none
    else decodeDataProcessing w (.reg ⟨regAt w 0, decodeShift w⟩)
  | 0b001 =>
    if bits w 24 23 = 0b10 && !bit w 20 then
      let imm16 := bits w 19 16 * 4096 + bits w 11 0
      let rd := regAt w 12
      match bits w 22 21 with
      | 0b00 => if rd = pc then none else some (.moveWide false rd imm16)
      | 0b10 => if rd = pc then none else some (.moveWide true rd imm16)
      | 0b01 => if bits w 19 16 = 0 then some .nop else none
      | _ => none
    else
      let rotate := bits w 11 8 * 2
      let value := (BitVec.ofNat 32 (bits w 7 0)).rotateRight rotate
      let carry := if rotate = 0 then none else some value.msb
      decodeDataProcessing w (.imm ⟨value⟩ carry)
  | 0b010 => decodeLoadStore w (.imm (bits w 11 0))
  | 0b011 =>
    if bit w 4 || regAt w 0 = pc then none
    else decodeLoadStore w (.reg ⟨regAt w 0, decodeShift w⟩)
  | 0b100 => decodeLoadStoreMultiple w
  | 0b101 => some (.branch (bit w 24) (branchTarget address w))
  | 0b111 =>
    if bit w 24 then some (.svc (bits w 23 0))
    else if bit w 4 && bits w 11 8 = 15 then decodeCoprocessor w
    else none
  | _ => none

def decode (address : UInt64) (w : UInt32) : Instr :=
  match Cond.ofBits (bits w 31 28) with
  | .nv => ⟨.al, decodeUnconditional w⟩
  | cond => ⟨cond, (decodeConditional address w).getD .undefined⟩

end Dynarec.Guest.A32
