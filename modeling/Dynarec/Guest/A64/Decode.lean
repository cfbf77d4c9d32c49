import Dynarec.Guest.A64.BitMask
import Dynarec.Guest.A64.Instr

/-!
# A64 instruction words

`decode` reads an instruction word at an address. Words outside the supported subset decode to
`Instr.undefined`.
-/

namespace Dynarec.Guest.A64

/-- The flag-setting AND shares its operation with the plain one. -/
def logicOp (opc : Nat) : LogicOp × Bool :=
  match opc with
  | 0 => (.and, false)
  | 1 => (.orr, false)
  | 2 => (.eor, false)
  | _ => (.and, true)

/-- A destination that is the stack pointer unless the instruction sets flags. -/
def destReg (setFlags : Bool) (n : Nat) : Reg :=
  if setFlags then .ofNatZr n else .ofNatSp n

/-- The address displaced by a signed count of instruction words. -/
def wordTarget (address : UInt64) (value width : Nat) : UInt64 :=
  displace address (signed value width * 4)

def decodeImmediate (address : UInt64) (w : UInt32) : Option Instr :=
  let wide := bit w 31
  let rd := bits w 4 0
  let rn := bits w 9 5
  match bits w 25 23 with
  | 0b000 | 0b001 =>
    let imm := signed (bits w 23 5 * 4 + bits w 30 29) 21
    let target :=
      if wide then displace (address &&& ~~~0xfff) (imm * 4096) else displace address imm
    some (.adr (.ofNatZr rd) target)
  | 0b010 =>
    let setFlags := bit w 29
    let imm := bits w 21 10
    let imm := if bit w 22 then imm * 4096 else imm
    some (.addSub wide (bit w 30) setFlags (destReg setFlags rd) (.ofNatSp rn)
      (.imm (UInt64.ofNat imm)))
  | 0b100 =>
    let n := bit w 22
    if !wide && n then none
    else do
      let imm ← decodeBitMask? n (bits w 15 10) (bits w 21 16) (if wide then 64 else 32)
      let (op, setFlags) := logicOp (bits w 30 29)
      return .logical wide op false setFlags (destReg setFlags rd) (.ofNatZr rn) (.imm imm)
  | 0b101 =>
    let hw := bits w 22 21
    if !wide && hw ≥ 2 then none
    else do
      let op ← match bits w 30 29 with
        | 0 => some MoveWideOp.movn
        | 2 => some .movz
        | 3 => some .movk
        | _ => none
      return .moveWide wide op (.ofNatZr rd) (bits w 20 5) (hw * 16)
  | 0b110 =>
    let immr := bits w 21 16
    let imms := bits w 15 10
    if bit w 22 != wide || (!wide && (immr ≥ 32 || imms ≥ 32)) then none
    else do
      let op ← match bits w 30 29 with
        | 0 => some BitfieldOp.sbfm
        | 1 => some .bfm
        | 2 => some .ubfm
        | _ => none
      return .bitfield wide op (.ofNatZr rd) (.ofNatZr rn) immr imms
  | 0b111 =>
    let lsb := bits w 15 10
    if bits w 30 29 != 0 || bit w 21 || bit w 22 != wide || (!wide && lsb ≥ 32) then none
    else some (.extract wide (.ofNatZr rd) (.ofNatZr rn) (.ofNatZr (bits w 20 16)) lsb)
  | _ => none

def decodeSystem (w : UInt32) : Option Instr :=
  let read := bit w 21
  let op0 := bits w 20 19
  let op1 := bits w 18 16
  let crn := bits w 15 12
  let crm := bits w 11 8
  let op2 := bits w 7 5
  let rt := Reg.ofNatZr (bits w 4 0)
  match op0 with
  | 0 => if !read && 2 ≤ crn && crn ≤ 4 then some .nop else none
  | 1 =>
    if read || crn != 7 then none
    else match op1, crm, op2 with
      | 3, 5, 1 => some (.invalidateInstructionCache rt)
      | 3, 4, 1 => some (.dataCacheZero rt)
      | _, _, _ => some .nop
  | _ => do
      let reg ← SysReg.ofEncoding? op0 op1 crn crm op2
      if read then return .mrs rt reg
      else if reg.isWritable then return .msr rt reg
      else none

def decodeBranch (address : UInt64) (w : UInt32) : Option Instr :=
  let rt := Reg.ofNatZr (bits w 4 0)
  if bits w 30 26 = 0b00101 then
    let target := wordTarget address (bits w 25 0) 26
    some (if bit w 31 then .branchLink target else .branch target)
  else if bits w 31 24 = 0b01010100 then
    if bit w 4 then none
    else some (.branchCond (.ofBits (bits w 3 0)) (wordTarget address (bits w 23 5) 19))
  else if bits w 30 25 = 0b011010 then
    some (.compareBranch (bit w 31) (bit w 24) rt (wordTarget address (bits w 23 5) 19))
  else if bits w 30 25 = 0b011011 then
    some (.testBranch (bits w 31 31 * 32 + bits w 23 19) (bit w 24) rt
      (wordTarget address (bits w 18 5) 14))
  else if bits w 31 24 = 0b11010100 then
    if bits w 4 2 != 0 then none
    else match bits w 23 21, bits w 1 0 with
      | 0, 1 => some (.svc (bits w 20 5))
      | 1, 0 => some (.brk (bits w 20 5))
      | _, _ => none
  else if bits w 31 22 = 0b1101010100 then decodeSystem w
  else if bits w 31 25 = 0b1101011 then
    if bits w 20 16 != 0x1f || bits w 15 10 != 0 || bits w 4 0 != 0 then none
    else do
      let kind ← match bits w 24 21 with
        | 0 => some BranchKind.br
        | 1 => some .blr
        | 2 => some .ret
        | _ => none
      return .branchRegister kind (.ofNatZr (bits w 9 5))
  else none

def indexMode (field : Nat) : IndexMode :=
  match field with
  | 0 | 2 => .offset
  | 1 => .postIndex
  | _ => .preIndex

/-- The memory operand of a single-register access. -/
def decodeAddress (w : UInt32) : Option Address :=
  let base := Reg.ofNatSp (bits w 9 5)
  let log2 := bits w 31 30
  match bits w 25 24 with
  | 0b01 => some ⟨base, .imm (bits w 21 10 <<< log2), .offset⟩
  | 0b00 =>
    if !bit w 21 then
      some ⟨base, .imm (signed (bits w 20 12) 9), indexMode (bits w 11 10)⟩
    else if bits w 11 10 = 0b10 && bit w 14 then
      let amount := if bit w 12 then log2 else 0
      some ⟨base, .reg (.ofNatZr (bits w 20 16)) (.ofBits (bits w 15 13)) amount, .offset⟩
    else none
  | _ => none

def decodeLoadStoreRegister (w : UInt32) : Option Instr :=
  let rt := Reg.ofNatZr (bits w 4 0)
  let log2 := bits w 31 30
  let size := AccessSize.ofLog2 log2
  match log2, bits w 23 22 with
  | _, 0 => (decodeAddress w).map (.store size rt)
  | _, 1 => (decodeAddress w).map (.load size false (log2 == 3) rt)
  | 3, 2 => (decodeAddress w).map fun _ => .nop
  | _, 2 => (decodeAddress w).map (.load size true true rt)
  | 2, _ | 3, _ => none
  | _, _ => (decodeAddress w).map (.load size true false rt)

def decodeLoadStorePair (w : UInt32) : Option Instr := do
  let load := bit w 22
  let (size, signed?) ← match bits w 31 30, load with
    | 0, _ => some (AccessSize.word, false)
    | 1, true => some (.word, true)
    | 2, _ => some (.double, false)
    | _, _ => none
  let rt := Reg.ofNatZr (bits w 4 0)
  let rt2 := Reg.ofNatZr (bits w 14 10)
  let addr : Address :=
    ⟨.ofNatSp (bits w 9 5), .imm (signed (bits w 21 15) 7 * size.bytes), indexMode (bits w 24 23)⟩
  return if load then .loadPair size signed? rt rt2 addr else .storePair size rt rt2 addr

def decodeLoadStore (address : UInt64) (w : UInt32) : Option Instr :=
  if bit w 26 then none
  else match bits w 29 27 with
    | 0b011 =>
      if bits w 25 24 != 0 then none
      else
        let rt := Reg.ofNatZr (bits w 4 0)
        let target := wordTarget address (bits w 23 5) 19
        match bits w 31 30 with
        | 0 => some (.loadLiteral .word false rt target)
        | 1 => some (.loadLiteral .double false rt target)
        | 2 => some (.loadLiteral .word true rt target)
        | _ => some .nop
    | 0b101 => decodeLoadStorePair w
    | 0b111 => decodeLoadStoreRegister w
    | _ => none

/-- Logical and additive instructions with a register as second operand. -/
def decodeShiftedRegister (w : UInt32) : Option Instr :=
  let wide := bit w 31
  let setFlags := bit w 29
  let rd := bits w 4 0
  let rn := bits w 9 5
  let rm := Reg.ofNatZr (bits w 20 16)
  let shift := Shift.ofBits (bits w 23 22)
  let amount := bits w 15 10
  if !bit w 24 then
    if !wide && amount ≥ 32 then none
    else
      let (op, setFlags) := logicOp (bits w 30 29)
      some (.logical wide op (bit w 21) setFlags (.ofNatZr rd) (.ofNatZr rn)
        (.shifted rm shift amount))
  else if !bit w 21 then
    if shift = .ror || (!wide && amount ≥ 32) then none
    else some (.addSub wide (bit w 30) setFlags (.ofNatZr rd) (.ofNatZr rn)
      (.shifted rm shift amount))
  else
    let amount := bits w 12 10
    if bits w 23 22 != 0 || amount > 4 then none
    else some (.addSub wide (bit w 30) setFlags (destReg setFlags rd) (.ofNatSp rn)
      (.extended rm (.ofBits (bits w 15 13)) amount))

/-- Division, variable shifts, byte reversal and the count of leading zeros. -/
def decodeSources (w : UInt32) (rd rn rm : Reg) : Option Instr :=
  let wide := bit w 31
  let opcode := bits w 15 10
  if bit w 29 then none
  else if !bit w 30 then
    match opcode with
    | 0b000010 => some (.divide wide false rd rn rm)
    | 0b000011 => some (.divide wide true rd rn rm)
    | 0b001000 | 0b001001 | 0b001010 | 0b001011 =>
      some (.shiftVariable wide (.ofBits opcode) rd rn rm)
    | _ => none
  else if bits w 20 16 != 0 then none
  else match opcode, wide with
    | 1, _ => some (.reverse wide .rev16 rd rn)
    | 2, true => some (.reverse wide .rev32 rd rn)
    | 2, false | 3, true => some (.reverse wide .rev rd rn)
    | 4, _ => some (.countLeadingZeros wide rd rn)
    | _, _ => none

def decodeMultiply (w : UInt32) (rd rn rm : Reg) : Option Instr :=
  let wide := bit w 31
  let sub := bit w 15
  let ra := Reg.ofNatZr (bits w 14 10)
  if bits w 30 29 != 0 then none
  else match bits w 23 21 with
    | 0 => some (.mulAdd wide sub rd rn rm ra)
    | 1 => if wide then some (.mulAddLong true sub rd rn rm ra) else none
    | 5 => if wide then some (.mulAddLong false sub rd rn rm ra) else none
    | 2 => if wide && !sub then some (.mulHigh true rd rn rm) else none
    | 6 => if wide && !sub then some (.mulHigh false rd rn rm) else none
    | _ => none

def decodeRegister (w : UInt32) : Option Instr :=
  let wide := bit w 31
  let rd := Reg.ofNatZr (bits w 4 0)
  let rn := Reg.ofNatZr (bits w 9 5)
  let rm := Reg.ofNatZr (bits w 20 16)
  if !bit w 28 then decodeShiftedRegister w
  else match bits w 24 21 with
    | 0b0000 =>
      if bits w 15 10 != 0 then none
      else some (.addSubCarry wide (bit w 30) (bit w 29) rd rn rm)
    | 0b0010 =>
      if !bit w 29 || bit w 10 || bit w 4 then none
      else
        let operand := if bit w 11 then .imm (bits w 20 16) else .reg rm
        some (.condCompare wide (!bit w 30) rn operand (bits w 3 0) (.ofBits (bits w 15 12)))
    | 0b0100 =>
      if bit w 29 || bit w 11 then none
      else
        let op : CondSelectOp := match bit w 30, bit w 10 with
          | false, false => .csel
          | false, true => .csinc
          | true, false => .csinv
          | true, true => .csneg
        some (.condSelect wide op rd rn rm (.ofBits (bits w 15 12)))
    | 0b0110 => decodeSources w rd rn rm
    | 0b1000 | 0b1001 | 0b1010 | 0b1011 | 0b1100 | 0b1101 | 0b1110 | 0b1111 =>
      decodeMultiply w rd rn rm
    | _ => none

def decode (address : UInt64) (w : UInt32) : Instr :=
  let instr? := match bits w 28 25 with
    | 0b1000 | 0b1001 => decodeImmediate address w
    | 0b1010 | 0b1011 => decodeBranch address w
    | 0b0100 | 0b0110 | 0b1100 | 0b1110 => decodeLoadStore address w
    | 0b0101 | 0b1101 => decodeRegister w
    | _ => none
  instr?.getD .undefined

end Dynarec.Guest.A64
