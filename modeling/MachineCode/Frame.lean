import MachineCode.Operand
import MachineCode.Bytes

/-! The frame of a method, from the stack pointer upwards: outgoing arguments, spill slots,
monitors, saved registers, then the return address and the caller's arguments. Counts, sizes and
offsets are meant to be 32-bit numbers, and frames whose areas exceed these are not; here they have
no bound. -/
namespace MachineCode

/-- Bytes of one slot: every spill, argument, monitor and save slot is a machine word. -/
def slotSize : Nat := 8

/-- Alignment of the stack pointer at calls. -/
def stackAlign : Nat := 16

/-- Saved registers, in consecutive slots from `offset` on. -/
structure SaveArea where
  registers : List Register
  offset : Nat
  deriving DecidableEq, Repr, Inhabited

namespace SaveArea

def size (a : SaveArea) : Nat := a.registers.length * slotSize

/-- Offset from the stack pointer of the `i`-th saved register. -/
def slotOffset (a : SaveArea) (i : Nat) : Nat := a.offset + i * slotSize

end SaveArea

/-- Frame memory that the method addresses directly. -/
structure StackBlock where
  offset : Nat
  size : Nat
  deriving DecidableEq, Repr

/-- All offsets count from the stack pointer once the frame is allocated; `size` is the number of
bytes below the return address. -/
structure Frame where
  size : Nat
  outgoingSize : Nat
  spillOffset : Nat
  spillSlots : Nat
  monitorOffset : Nat
  monitorCount : Nat
  saved : SaveArea
  blocks : List StackBlock
  deriving DecidableEq, Repr, Inhabited

namespace Frame

def empty : Frame := ⟨0, 0, 0, 0, 0, 0, ⟨[], 0⟩, []⟩

/-- A frame of `size` bytes with the saved registers at its top and spill slots below. -/
def withSize (size : Nat) (saved : List Register) : Frame :=
  let offset := size - saved.length * slotSize
  ⟨size, 0, 0, offset / slotSize, offset, 0, ⟨saved, offset⟩, []⟩

/-- A frame for the given numbers of slots, padded so that the stack pointer is aligned once the
return address is counted. -/
def compute (outgoingSlots spillSlots monitorCount : Nat) (saved : List Register) : Frame :=
  let outgoingSize := outgoingSlots * slotSize
  let monitorOffset := outgoingSize + spillSlots * slotSize
  let saveOffset := monitorOffset + monitorCount * slotSize
  let used := saveOffset + saved.length * slotSize
  ⟨alignUp (used + slotSize) stackAlign - slotSize, outgoingSize, outgoingSize, spillSlots,
    monitorOffset, monitorCount, ⟨saved, saveOffset⟩, []⟩

/-- Turn the top spill slots that hold `size` bytes into a stack block. The result is its index,
or nothing when too few slots are left. -/
def addBlock (f : Frame) (size : Nat) : Option Nat × Frame :=
  let slots := (size + (slotSize - 1)) / slotSize
  if slots ≤ f.spillSlots then
    let left := f.spillSlots - slots
    (some f.blocks.length,
      { f with
        spillSlots := left
        blocks := f.blocks ++ [⟨f.spillOffset + left * slotSize, size⟩] })
  else (none, f)

/-- Offset of a slot from the stack pointer. -/
def slotOffset (f : Frame) : StackSlot → Nat
  | .outgoing n => n * slotSize
  | .spill n => f.spillOffset + n * slotSize
  | .incoming n => f.size + slotSize + n * slotSize

def monitorSlot (f : Frame) (index : Nat) : Nat := f.monitorOffset + index * slotSize

/-- The areas of the frame with their names, offsets and sizes. -/
def areas (f : Frame) : List (String × Nat × Nat) :=
  [("outgoing", 0, f.outgoingSize),
    ("spill", f.spillOffset, f.spillSlots * slotSize),
    ("monitor", f.monitorOffset, f.monitorCount * slotSize),
    ("callee-save", f.saved.offset, f.saved.size)] ++
  f.blocks.map fun b => ("stack block", b.offset, b.size)

/-- What is wrong with one area, if anything. -/
def areaFault? (f : Frame) (area : String × Nat × Nat) : Option String :=
  let (name, offset, size) := area
  if offset % slotSize ≠ 0 then
    some s!"{name} area offset {offset} is not word aligned"
  else if f.size < offset + size then
    some s!"{name} area [{offset}, {offset + size}) exceeds frame size {f.size}"
  else none

/-- The first fault of the layout: the frame and its areas are word aligned, and each area lies
inside the frame. -/
def fault? (f : Frame) : Option String :=
  if f.size % slotSize ≠ 0 then
    some s!"frame size {f.size} is not a multiple of {slotSize}"
  else f.areas.findSome? f.areaFault?

theorem addBlock_none {f g : Frame} {size : Nat} (h : f.addBlock size = (none, g)) : g = f := by
  simp only [addBlock] at h
  split at h <;> simp_all

end Frame

end MachineCode
