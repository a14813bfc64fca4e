import MachineCode.Bytes

/-! Sparse byte memory: the writes so far, the latest first. A byte that was never written is 0. -/
namespace MachineCode

/-- Bytes written from `start` on; addresses wrap around. -/
structure MemoryWrite where
  start : Word
  bytes : Array UInt8
  deriving DecidableEq, Repr

structure Memory where
  writes : List MemoryWrite
  deriving DecidableEq, Repr

namespace MemoryWrite

def get? (w : MemoryWrite) (a : Word) : Option UInt8 := w.bytes[(a - w.start).toNat]?

end MemoryWrite

namespace Memory

def empty : Memory := ⟨[]⟩

/-- The byte at `a`. -/
def get (m : Memory) (a : Word) : UInt8 := (m.writes.findSome? (·.get? a)).getD 0

def write (m : Memory) (start : Word) (bytes : Array UInt8) : Memory := ⟨⟨start, bytes⟩ :: m.writes⟩

/-- The `n` bytes from `start` on. -/
def read (m : Memory) (start : Word) (n : Nat) : List UInt8 :=
  (List.range n).map fun i => m.get (start + BitVec.ofNat 64 i)

/-- The number that stands in `n` bytes. -/
def readWord (m : Memory) (start : Word) (n : Nat) : Nat := ofLeBytes (m.read start n)

def writeWord (m : Memory) (start : Word) (n : Nat) (v : Word) : Memory :=
  m.write start (leBytes n v.toNat).toArray

theorem get_write (m : Memory) (start a : Word) (bytes : Array UInt8) :
    (m.write start bytes).get a = bytes[(a - start).toNat]?.getD (m.get a) := by
  simp only [get, write, List.findSome?_cons, MemoryWrite.get?]
  cases bytes[(a - start).toNat]? <;> rfl

theorem get_write_of_outside {m : Memory} {start a : Word} {bytes : Array UInt8}
    (h : bytes.size ≤ (a - start).toNat) : (m.write start bytes).get a = m.get a := by
  rw [get_write, Array.getElem?_eq_none h, Option.getD_none]

@[simp] theorem length_read (m : Memory) (start : Word) (n : Nat) :
    (m.read start n).length = n := by
  simp [read]

end Memory

end MachineCode
