import MachineCode.Bytes
import MachineCode.Operand

/-! Constants and object slots that code addresses relative to the instruction pointer. Equal
constants of equal alignment share one entry, and so do the slots of one object. Offsets are meant
to be 32-bit numbers, which they are in sections of less than 2^32 bytes; here they have no
bound. -/
namespace MachineCode

/-- A constant is known by its bytes and its alignment. -/
structure DataConstant where
  bytes : List UInt8
  align : Nat
  deriving DecidableEq, Repr

/-- Entries are given by their offsets in `bytes`. -/
structure DataSection where
  bytes : Array UInt8
  constants : List (DataConstant × Nat)
  slots : List (ObjectId × Nat)
  deriving Repr

namespace DataSection

def empty : DataSection := ⟨#[], [], []⟩

def size (s : DataSection) : Nat := s.bytes.size

/-- Append `bytes` at the next multiple of `align`; the result is their offset. -/
def emitAligned (s : DataSection) (bytes : List UInt8) (align : Nat) : Nat × DataSection :=
  let start := alignUp s.size align
  (start,
    { s with bytes := s.bytes ++ Array.replicate (start - s.size) (0 : UInt8) ++ bytes })

/-- The entry of a constant, appended unless it is there. -/
def constant (s : DataSection) (bytes : List UInt8) (align : Nat) : Nat × DataSection :=
  match s.constants.lookup ⟨bytes, align⟩ with
  | some offset => (offset, s)
  | none =>
    let (offset, s) := s.emitAligned bytes align
    (offset, { s with constants := (⟨bytes, align⟩, offset) :: s.constants })

def floatBits (s : DataSection) (bits : UInt32) : Nat × DataSection :=
  s.constant (leBytes 4 bits.toNat) 4

def doubleBits (s : DataSection) (bits : UInt64) : Nat × DataSection :=
  s.constant (leBytes 8 bits.toNat) 8

/-- A 16-byte aligned mask for packed logic, from its low and its high lane. -/
def mask128 (s : DataSection) (lo hi : UInt64) : Nat × DataSection :=
  s.constant (leBytes 8 lo.toNat ++ leBytes 8 hi.toNat) 16

/-- The slot that receives an object's address, and whether it is new. -/
def objectSlot (s : DataSection) (o : ObjectId) : (Nat × Bool) × DataSection :=
  match s.slots.lookup o with
  | some offset => ((offset, false), s)
  | none =>
    let (offset, s) := s.emitAligned (leBytes 8 0) 8
    ((offset, true), { s with slots := (o, offset) :: s.slots })

theorem size_emitAligned (s : DataSection) (bytes : List UInt8) (align : Nat) :
    (s.emitAligned bytes align).2.size = alignUp s.size align + bytes.length := by
  simp [emitAligned, size, alignUp, ← Array.length_toList, Nat.add_assoc]

end DataSection

end MachineCode
