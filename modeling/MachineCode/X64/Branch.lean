import MachineCode.CodeBuffer
import MachineCode.X64.Instr

/-! Branches to labels. The two-byte form is used for targets that are bound and in reach; a
forward branch takes the long form unless the short one is asked for. -/
namespace MachineCode.CodeBuffer

open X64

/-- The displacement of a two-byte branch at the current position, if the label is bound and in
reach. -/
def shortReach? (b : CodeBuffer) (l : Label) : Option Int8 := do
  let target ← b.labelOffset l
  int8? ((target : Int) - (b.position + 2))

/-- A branch with the opcode bytes of its two forms. -/
def branch (short : UInt8) (long : List UInt8) (l : Label) : BufferStep Unit := do
  match (← get).shortReach? l with
  | some d => emit [short, d.toUInt8]
  | none =>
    emit long
    reference l .rel32

def jcc (cond : Cond) (l : Label) : BufferStep Unit :=
  branch (0x70 + UInt8.ofNat cond.code) [0x0F, 0x80 + UInt8.ofNat cond.code] l

def jmp (l : Label) : BufferStep Unit := branch 0xEB [0xE9] l

/-- The two-byte form, also for a label that is not bound. -/
def jccShort (cond : Cond) (l : Label) : BufferStep Unit := do
  emit [0x70 + UInt8.ofNat cond.code]
  reference l .rel8

def jmpShort (l : Label) : BufferStep Unit := do
  emit [0xEB]
  reference l .rel8

end MachineCode.CodeBuffer
