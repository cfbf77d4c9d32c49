/-!
# Text from bytes

Bytes read as UTF-8. Where they are not well-formed, the longest piece that could begin a character
is replaced as a whole.
-/

namespace Dynarec.Text

/-- Stands for bytes that are not well-formed. -/
def replacement : Char := '�'

/-- A character that lacks some of its bytes. -/
structure Pending where
  /-- How many bytes are still to come. -/
  missing : Nat
  /-- Least next byte. -/
  lower : Nat
  /-- Greatest next byte. -/
  upper : Nat
  /-- The bits that the bytes so far give. -/
  value : Nat
deriving DecidableEq, Repr

/-- The first byte of a character. Second bytes are bounded so that no character has two forms and
none lies outside the code space. -/
def firstByte (b : Nat) : List Char × Option Pending :=
  if b < 0x80 then ([Char.ofNat b], none)
  else if b < 0xc2 then ([replacement], none)
  else if b < 0xe0 then ([], some ⟨1, 0x80, 0xbf, b - 0xc0⟩)
  else if b < 0xf0 then
    ([], some ⟨2, if b = 0xe0 then 0xa0 else 0x80, if b = 0xed then 0x9f else 0xbf, b - 0xe0⟩)
  else if b < 0xf5 then
    ([], some ⟨3, if b = 0xf0 then 0x90 else 0x80, if b = 0xf4 then 0x8f else 0xbf, b - 0xf0⟩)
  else ([replacement], none)

/-- One more byte: the characters it completes, and the one it leaves open. -/
def nextByte (pending : Option Pending) (b : Nat) : List Char × Option Pending :=
  match pending with
  | none => firstByte b
  | some p =>
    if b < p.lower || p.upper < b then
      let (text, open?) := firstByte b
      (replacement :: text, open?)
    else
      let value := p.value * 64 + (b - 0x80)
      if p.missing = 1 then ([Char.ofNat value], none)
      else ([], some ⟨p.missing - 1, 0x80, 0xbf, value⟩)

/-- The characters of a byte string that continues after `pending`. -/
def charsFrom (pending : Option Pending) : List UInt8 → List Char
  | [] => if pending.isSome then [replacement] else []
  | b :: rest =>
    let (text, open?) := nextByte pending b.toNat
    text ++ charsFrom open? rest

def ofUtf8 (bytes : List UInt8) : String := String.ofList (charsFrom none bytes)

end Dynarec.Text
