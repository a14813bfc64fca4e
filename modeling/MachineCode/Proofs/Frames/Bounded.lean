import MachineCode.Proofs.Frames.Areas
import MachineCode.Proofs.Numbers

/-! Frames in 32-bit numbers. Counts, sizes and offsets of a frame are meant to be 32-bit numbers,
whose sums and products wrap around. As long as the sizes of the areas fit, this makes no
difference: frames are laid out alike, are accepted alike, and stay within the bound when blocks are
taken out. -/
namespace MachineCode

namespace Frame

/-- The size of so many slots, as a 32-bit product. -/
def slots32 (n : Nat) : UInt32 := UInt32.ofNat n * UInt32.ofNat slotSize

theorem toNat_slots32 {n : Nat} (h : n * slotSize < 2 ^ 32) : (slots32 n).toNat = n * slotSize := by
  have hn : n < 2 ^ 32 := Nat.lt_of_le_of_lt (Nat.le_mul_of_pos_right n (by decide)) h
  rw [slots32, UInt32.toNat_mul, UInt32.toNat_ofNat_of_lt' hn,
    UInt32.toNat_ofNat_of_lt' (by decide), Nat.mod_eq_of_lt h]

/-- The next multiple of 16, by clearing the four low bits. -/
def alignUp32 (v : UInt32) : UInt32 := (v + 15) &&& ~~~(15 : UInt32)

theorem and_not_fifteen (v : BitVec 32) : v &&& ~~~(15#32) = (v >>> 4) <<< 4 := by
  have hmask : ~~~(15#32) = BitVec.allOnes 32 <<< 4 := by decide
  refine BitVec.eq_of_getLsbD_eq fun i hi => ?_
  rw [hmask, BitVec.getLsbD_and, BitVec.getLsbD_shiftLeft, BitVec.getLsbD_shiftLeft,
    BitVec.getLsbD_ushiftRight, BitVec.getLsbD_allOnes]
  obtain hlow | hhigh := Nat.lt_or_ge i 4
  · simp [hlow]
  · have hback : 4 + (i - 4) = i := by omega
    have hshifted : i - 4 < 32 := by omega
    simp [hback, hi, hshifted, Nat.not_lt.mpr hhigh]

theorem toNat_alignUp32 {v : UInt32} (h : v.toNat + 15 < 2 ^ 32) :
    (alignUp32 v).toNat = alignUp v.toNat stackAlign := by
  have hclear : (alignUp32 v).toBitVec = ((v + 15).toBitVec >>> 4) <<< 4 := and_not_fifteen _
  have hsum : (v + 15).toNat = v.toNat + 15 := by
    rw [UInt32.toNat_add]
    exact Nat.mod_eq_of_lt h
  rw [alignUp_stackAlign, ← hsum, ← UInt32.toNat_toBitVec, hclear, BitVec.toNat_shiftLeft,
    BitVec.toNat_ushiftRight, Nat.shiftLeft_eq, Nat.shiftRight_eq_div_pow, UInt32.toNat_toBitVec]
  exact Nat.mod_eq_of_lt (Nat.lt_of_le_of_lt (Nat.div_mul_le_self _ _) (v + 15).toNat_lt)

/-- The frame size and the offsets of the areas behind the outgoing one, for the given numbers of
slots, computed in 32-bit numbers. -/
def layout32 (outgoing spills monitors saved : Nat) : List UInt32 :=
  let monitorOffset := slots32 outgoing + slots32 spills
  let saveOffset := monitorOffset + slots32 monitors
  let used := saveOffset + slots32 saved
  [alignUp32 (used + 8) - 8, slots32 outgoing, monitorOffset, saveOffset]

theorem toNat_add32 {x y : UInt32} {m n : Nat} (hx : x.toNat = m) (hy : y.toNat = n)
    (h : m + n < 2 ^ 32) : (x + y).toNat = m + n := by
  rw [UInt32.toNat_add, hx, hy, Nat.mod_eq_of_lt h]

/-- Slots that fit together, with the padding, are laid out as with numbers of any size. -/
theorem toNat_layout32 {outgoing spills monitors : Nat} {saved : List Register}
    (h : (outgoing + spills + monitors + saved.length) * slotSize + 23 < 2 ^ 32) :
    let f := compute outgoing spills monitors saved
    (layout32 outgoing spills monitors saved.length).map UInt32.toNat =
      [f.size, f.spillOffset, f.monitorOffset, f.saved.offset] := by
  intro f
  have hslot : slotSize = 8 := rfl
  rw [Nat.add_mul, Nat.add_mul, Nat.add_mul] at h
  have houtgoing := toNat_slots32 (n := outgoing) (by omega)
  have hmonitor := toNat_add32 houtgoing (toNat_slots32 (n := spills) (by omega)) (by omega)
  have hsave := toNat_add32 hmonitor (toNat_slots32 (n := monitors) (by omega)) (by omega)
  have hused := toNat_add32 hsave (toNat_slots32 (n := saved.length) (by omega)) (by omega)
  let used := slots32 outgoing + slots32 spills + slots32 monitors + slots32 saved.length
  have hsize : (alignUp32 (used + 8) - 8).toNat = f.size := by
    have hpadded : (used + 8).toNat = _ := toNat_add32 hused (n := slotSize) rfl (by omega)
    have haligned := toNat_alignUp32 (v := used + 8) (by omega)
    have hle : 8 ≤ alignUp32 (used + 8) := by
      rw [UInt32.le_iff_toNat_le, haligned, hpadded, alignUp_stackAlign]
      change 8 ≤ _
      omega
    rw [UInt32.toNat_sub_of_le _ _ hle, haligned, hpadded]
    rfl
  simp only [layout32, List.map_cons, List.map_nil, houtgoing, hmonitor, hsave]
  exact congrArg (· :: _) hsize

/-- The sizes of the areas are 32-bit numbers. -/
structure Bounded (f : Frame) : Prop where
  spills : f.spillSlots * slotSize < 2 ^ 32
  monitors : f.monitorCount * slotSize < 2 ^ 32
  saved : f.saved.size < 2 ^ 32

/-- The areas, with their sizes computed in 32-bit numbers. -/
def areas32 (f : Frame) : List (String × Nat × Nat) :=
  [("outgoing", 0, f.outgoingSize),
    ("spill", f.spillOffset, (slots32 f.spillSlots).toNat),
    ("monitor", f.monitorOffset, (slots32 f.monitorCount).toNat),
    ("callee-save", f.saved.offset, (slots32 f.saved.registers.length).toNat)] ++
  f.blocks.map fun b => ("stack block", b.offset, b.size)

/-- Within the bound the areas that are checked are the same. -/
theorem Bounded.areas32_eq {f : Frame} (h : f.Bounded) : f.areas32 = f.areas := by
  rw [areas32, toNat_slots32 h.spills, toNat_slots32 h.monitors, toNat_slots32 h.saved]
  rfl

/-- A valid frame whose size is a 32-bit number is within the bound. -/
theorem bounded_of_fault?_eq_none {f : Frame} (h : f.fault? = none) (hsize : f.size < 2 ^ 32) :
    f.Bounded := by
  have hareas := (fault?_eq_none.mp h).2
  have hend : ∀ name offset size, (name, offset, size) ∈ f.areas → size < 2 ^ 32 := by
    intro name offset size hmem
    have hle : offset + size ≤ f.size := (hareas _ hmem).2
    omega
  exact ⟨hend "spill" f.spillOffset _ (by simp [areas]),
    hend "monitor" f.monitorOffset _ (by simp [areas]),
    hend "callee-save" f.saved.offset _ (by simp [areas])⟩

theorem Bounded.addBlock {f : Frame} (h : f.Bounded) (size : Nat) :
    (f.addBlock size).2.Bounded := by
  unfold Frame.addBlock
  dsimp only
  split
  · refine { h with spills := ?_ }
    exact Nat.lt_of_le_of_lt (Nat.mul_le_mul_right slotSize (Nat.sub_le _ _)) h.spills
  · exact h

end Frame

end MachineCode
