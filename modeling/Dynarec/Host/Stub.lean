import Dynarec.Context
import Dynarec.Host.Assembler
import Dynarec.Host.Convention

/-!
# Shared pieces of generated code

The entry saves the registers of its caller, loads the context register and calls generated code,
which returns the next guest address. The exit returns the guest address in the context. The fill
stands in for code that is not there yet: it asks the host for code at the guest address in the
context and jumps to it.
-/

namespace Dynarec.Host.Stub

def pcDisp : Int32 := Context.pcOffset.toInt32

def emitEntry : Asm Unit := do
  calleeSavedRegs.forM Asm.push
  Asm.mov .i64 contextReg .rdi
  Asm.aluImm .sub .i64 .rsp 8
  Asm.callReg .rsi
  Asm.aluImm .add .i64 .rsp 8
  calleeSavedRegs.reverse.forM Asm.pop
  Asm.ret

def emitExit : Asm Unit := do
  Asm.load .b64 .rax contextReg pcDisp
  Asm.ret

def emitFill (resolve : UInt64) : Asm Unit := do
  Asm.load .b64 .rdi contextReg pcDisp
  Asm.aluImm .sub .i64 .rsp 8
  Asm.movImm .rax resolve
  Asm.callReg .rax
  Asm.aluImm .add .i64 .rsp 8
  Asm.jmpReg .rax

/-- The bytes that an emission leaves, starting from nothing. -/
def bytes (emission : Asm Unit) : Except EncodingError (List UInt8) :=
  ((emission *> Asm.finish).run Assembler.empty).1

def entry : Except EncodingError (List UInt8) := bytes emitEntry

def exit : Except EncodingError (List UInt8) := bytes emitExit

/-- The fill with the address of the host function that finds code. -/
def fill (resolve : UInt64) : Except EncodingError (List UInt8) := bytes (emitFill resolve)

end Dynarec.Host.Stub
