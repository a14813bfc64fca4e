import MachineCode.Frame
import Mathlib.Order.Monotone.Basic

/-! The areas of a frame. Slots and stack blocks are ranges of bytes. In a frame that is laid out
from slot counts or for a given size they are word aligned, lie inside the frame and do not overlap,
and stack blocks that are taken out of the spill area keep it so. -/
namespace MachineCode

/-- Bytes of a frame, counted from the stack pointer. -/
structure FrameRange where
  offset : Nat
  size : Nat
  deriving DecidableEq, Repr

namespace FrameRange

/-- No byte belongs to both ranges. -/
def Apart (r r' : FrameRange) : Prop :=
  r.offset + r.size ≤ r'.offset ∨ r'.offset + r'.size ≤ r.offset

end FrameRange

/-- What has a range of bytes in a frame. -/
inductive FramePart where
  | outgoing (n : Nat)
  | spill (n : Nat)
  | monitor (n : Nat)
  /-- The slot of a saved register. -/
  | saved (i : Nat)
  | block (k : Nat)
  deriving DecidableEq, Repr

namespace Frame

/-- The bytes of a part, if the frame has the part. -/
def range? (f : Frame) : FramePart → Option FrameRange
  | .outgoing n =>
    if f.slotOffset (.outgoing n) < f.outgoingSize then
      some ⟨f.slotOffset (.outgoing n), slotSize⟩ else none
  | .spill n => if n < f.spillSlots then some ⟨f.slotOffset (.spill n), slotSize⟩ else none
  | .monitor n => if n < f.monitorCount then some ⟨f.monitorSlot n, slotSize⟩ else none
  | .saved i => if i < f.saved.registers.length then some ⟨f.saved.slotOffset i, slotSize⟩ else none
  | .block k => f.blocks[k]?.map fun b => ⟨b.offset, b.size⟩

/-- One request for a stack block after the other. One that fails takes nothing. -/
def addBlocks (f : Frame) (sizes : List Nat) : Frame :=
  sizes.foldl (fun f size => (f.addBlock size).2) f

/-- A frame that is laid out from slot counts, or one of a given size that is valid. -/
inductive LaidOut : Frame → Prop
  | compute (outgoing spills monitors : Nat) (saved : List Register) :
    LaidOut (compute outgoing spills monitors saved)
  | withSize {size : Nat} {saved : List Register} (h : (withSize size saved).fault? = none) :
      LaidOut (withSize size saved)

/-- A frame is valid if its areas are word aligned and inside. -/
theorem fault?_eq_none {f : Frame} : f.fault? = none ↔
    f.size % slotSize = 0 ∧ ∀ a ∈ f.areas, a.2.1 % slotSize = 0 ∧ a.2.1 + a.2.2 ≤ f.size := by
  have harea : ∀ a, f.areaFault? a = none ↔ a.2.1 % slotSize = 0 ∧ a.2.1 + a.2.2 ≤ f.size := by
    rintro ⟨name, offset, size⟩
    simp only [areaFault?]
    split
    · simp_all
    · split <;> simp_all
  unfold fault?
  split <;> rename_i hsize
  · simp [hsize]
  · rw [List.findSome?_eq_none_iff]
    simp only [harea]
    exact (and_iff_right (not_not.mp hsize)).symm

/-- The size of a frame is rounded up so that it is aligned together with the return address. -/
theorem alignUp_stackAlign (n : Nat) : alignUp n stackAlign = (n + 15) / 16 * 16 := by
  have hmax : Nat.max stackAlign 1 = 16 := rfl
  rw [alignUp, hmax]
  omega

/-! ### The invariant -/

/-- The areas are in order, and the stack blocks lie between the spill slots and the monitors, later
ones below earlier ones. -/
structure Ordered (f : Frame) : Prop where
  size : f.size % slotSize = 0
  outgoing : f.outgoingSize % slotSize = 0
  spills : f.spillOffset = f.outgoingSize
  monitors : f.monitorOffset % slotSize = 0
  saved : f.saved.offset % slotSize = 0
  spillsEnd : f.spillOffset + f.spillSlots * slotSize ≤ f.monitorOffset
  monitorsEnd : f.monitorOffset + f.monitorCount * slotSize ≤ f.saved.offset
  savedEnd : f.saved.offset + f.saved.size ≤ f.size
  blocks : ∀ b ∈ f.blocks, b.offset % slotSize = 0 ∧
    f.spillOffset + f.spillSlots * slotSize ≤ b.offset ∧
    b.offset + b.size ≤ f.monitorOffset
  descending : f.blocks.Pairwise fun b b' => b'.offset + b'.size ≤ b.offset

theorem LaidOut.ordered {f : Frame} (h : f.LaidOut) : f.Ordered := by
  cases h with
  | compute outgoing spills monitors saved =>
    refine ⟨?_, ?_, rfl, ?_, ?_, ?_, ?_, ?_, nofun, .nil⟩ <;>
      simp only [Frame.compute, SaveArea.size, alignUp_stackAlign, slotSize] <;> omega
  | @withSize size saved h =>
    obtain ⟨hsize, hareas⟩ := fault?_eq_none.mp h
    have hsaved := hareas ("callee-save", (Frame.withSize size saved).saved.offset,
      (Frame.withSize size saved).saved.size)
      (by simp [areas])
    simp only [Frame.withSize, SaveArea.size, slotSize] at hsize hsaved
    refine ⟨hsize, rfl, rfl, ?_, ?_, ?_, ?_, ?_, nofun, .nil⟩ <;>
      simp only [Frame.withSize, SaveArea.size, slotSize] <;> omega

/-- A block that is taken out of the spill area starts where the spill slots end now, and ends where
they have ended before. -/
theorem Ordered.addBlock {f : Frame} (h : f.Ordered) (size : Nat) :
    (f.addBlock size).2.Ordered := by
  obtain ⟨hsize, houtgoing, hspills, hmonitors, hsaved, hspillsEnd, hmonitorsEnd, hsavedEnd,
    hblocks, hdescending⟩ := h
  unfold Frame.addBlock
  dsimp only
  split
  · rename_i hfits
    have hnew : size ≤ (size + (slotSize - 1)) / slotSize * slotSize := by
      simp only [slotSize]; omega
    have hleft :
        f.spillOffset + (f.spillSlots - (size + (slotSize - 1)) / slotSize) * slotSize + size ≤
        f.spillOffset + f.spillSlots * slotSize := by
      have := Nat.mul_le_mul_right slotSize hfits
      rw [Nat.sub_mul]
      omega
    refine ⟨hsize, houtgoing, hspills, hmonitors, hsaved, ?_, hmonitorsEnd,
      hsavedEnd, fun b hb => ?_,
      List.pairwise_append.mpr ⟨hdescending, List.pairwise_singleton _ _, fun b hb b' hb' => ?_⟩⟩
    · dsimp only
      omega
    · obtain hb | hb := List.mem_append.mp hb
      · obtain ⟨haligned, hstart, hend⟩ := hblocks b hb
        exact ⟨haligned, by dsimp only; omega, hend⟩
      · obtain rfl := List.mem_singleton.mp hb
        refine ⟨?_, Nat.le_refl _, by dsimp only; omega⟩
        dsimp only [slotSize] at houtgoing hspills ⊢
        omega
    · obtain rfl := List.mem_singleton.mp hb'
      have := (hblocks b hb).2.1
      dsimp only
      omega
  · exact ⟨hsize, houtgoing, hspills, hmonitors, hsaved, hspillsEnd, hmonitorsEnd, hsavedEnd,
      hblocks, hdescending⟩

theorem Ordered.addBlocks {f : Frame} (h : f.Ordered) (sizes : List Nat) :
    (f.addBlocks sizes).Ordered := by
  induction sizes generalizing f with
  | nil => exact h
  | cons size sizes ih => exact ih (h.addBlock size)

/-- The size of a frame does not depend on its stack blocks. -/
theorem size_addBlocks (f : Frame) (sizes : List Nat) : (f.addBlocks sizes).size = f.size := by
  induction sizes generalizing f with
  | nil => rfl
  | cons size sizes ih =>
    refine (ih _).trans ?_
    unfold addBlock
    dsimp only
    split <;> rfl

/-! ### Ranges -/

section Ranges

variable {f : Frame} {p q : FramePart} {r r' : FrameRange}

theorem Ordered.fault? (h : f.Ordered) : f.fault? = none := by
  obtain ⟨hsize, houtgoing, hspills, hmonitors, hsaved, hspillsEnd, hmonitorsEnd,
    hsavedEnd, hblocks, -⟩ := h
  refine fault?_eq_none.mpr ⟨hsize, fun a ha => ?_⟩
  simp only [areas, List.mem_append, List.mem_cons, List.mem_map, List.not_mem_nil, or_false] at ha
  obtain (rfl | rfl | rfl | rfl) | ⟨b, hb, rfl⟩ := ha <;> dsimp only
  · exact ⟨rfl, by omega⟩
  · exact ⟨hspills ▸ houtgoing, by omega⟩
  · exact ⟨hmonitors, by omega⟩
  · exact ⟨hsaved, hsavedEnd⟩
  · obtain ⟨haligned, -, hend⟩ := hblocks b hb
    exact ⟨haligned, by omega⟩

/-- The borders between the areas, from the stack pointer upwards. -/
def border (f : Frame) : Nat → Nat
  | 0 => 0
  | 1 => f.spillOffset
  | 2 => f.spillOffset + f.spillSlots * slotSize
  | 3 => f.monitorOffset
  | 4 => f.saved.offset
  | _ => f.size

/-- The area that a part belongs to, by the number of the border where it starts. -/
def area : FramePart → Nat
  | .outgoing _ => 0
  | .spill _ => 1
  | .block _ => 2
  | .monitor _ => 3
  | .saved _ => 4

theorem Ordered.monotone_border (h : f.Ordered) : Monotone f.border := by
  refine monotone_nat_of_le_succ fun i => ?_
  obtain ⟨-, -, -, -, -, hspillsEnd, hmonitorsEnd, hsavedEnd, -, -⟩ := h
  match i with
  | 0 => exact Nat.zero_le _
  | 1 => exact Nat.le_add_right _ _
  | 2 => exact hspillsEnd
  | 3 => exact Nat.le_trans (Nat.le_add_right _ _) hmonitorsEnd
  | 4 => exact Nat.le_trans (Nat.le_add_right _ _) hsavedEnd
  | _ + 5 => exact Nat.le_refl _

/-- A part is word aligned and lies in its area. -/
theorem Ordered.within (h : f.Ordered) (hr : f.range? p = some r) : r.offset % slotSize = 0 ∧
    f.border (area p) ≤ r.offset ∧ r.offset + r.size ≤ f.border (area p + 1) := by
  obtain ⟨-, houtgoing, hspills, hmonitors, hsaved, hspillsEnd, hmonitorsEnd,
    hsavedEnd, hblocks, -⟩ := h
  cases p with
  | outgoing n | spill n | monitor n | saved i =>
    simp only [range?, Option.ite_none_right_eq_some, Option.some.injEq] at hr
    obtain ⟨hlt, rfl⟩ := hr
    simp only [slotOffset, monitorSlot, SaveArea.slotOffset, SaveArea.size, area,
      border, slotSize] at *
    omega
  | block k =>
    obtain ⟨b, hb, rfl⟩ := Option.map_eq_some_iff.mp hr
    exact hblocks b (List.mem_of_getElem? hb)

/-- Two slots of one area are a slot's size apart at least. -/
theorem apart_slots {base n m : Nat} (hne : n ≠ m) :
    FrameRange.Apart ⟨base + n * slotSize, slotSize⟩ ⟨base + m * slotSize, slotSize⟩ := by
  simp only [FrameRange.Apart, slotSize]
  omega

theorem slotOffset_outgoing (f : Frame) (n : Nat) : f.slotOffset (.outgoing n) = 0 + n * slotSize :=
  (Nat.zero_add _).symm

theorem apart_blocks {k k' : Nat} {b b' : StackBlock} (h : f.Ordered) (hb : f.blocks[k]? = some b)
    (hb' : f.blocks[k']? = some b') (hne : k ≠ k') :
    FrameRange.Apart ⟨b.offset, b.size⟩ ⟨b'.offset, b'.size⟩ := by
  obtain ⟨hk, rfl⟩ := List.getElem?_eq_some_iff.mp hb
  obtain ⟨hk', rfl⟩ := List.getElem?_eq_some_iff.mp hb'
  have hbelow := List.pairwise_iff_getElem.mp h.descending
  obtain hlt | hlt := Nat.lt_or_gt_of_ne hne
  · exact .inr (hbelow k k' hk hk' hlt)
  · exact .inl (hbelow k' k hk' hk hlt)

/-- Parts of one area are apart by their index. -/
theorem Ordered.apart_of_area (h : f.Ordered) (hp : f.range? p = some r) (hq : f.range? q = some r')
    (harea : area p = area q) (hne : p ≠ q) : r.Apart r' := by
  match p, q, harea with
  | .block k, .block k', _ =>
    obtain ⟨b, hb, rfl⟩ := Option.map_eq_some_iff.mp hp
    obtain ⟨b', hb', rfl⟩ := Option.map_eq_some_iff.mp hq
    exact apart_blocks h hb hb' fun heq => hne (heq ▸ rfl)
  | .outgoing n, .outgoing m, _ | .spill n, .spill m, _ | .monitor n, .monitor m,
    _ | .saved n, .saved m, _ =>
    simp only [range?, slotOffset_outgoing, Option.ite_none_right_eq_some,
      Option.some.injEq] at hp hq
    obtain ⟨-, rfl⟩ := hp
    obtain ⟨-, rfl⟩ := hq
    exact apart_slots fun heq => hne (heq ▸ rfl)

/-- Parts of different areas are apart because the areas are in order, parts of one area by their
index. -/
theorem Ordered.apart (h : f.Ordered) (hp : f.range? p = some r) (hq : f.range? q = some r')
    (hne : p ≠ q) :
    r.Apart r' := by
  obtain ⟨-, hstart, hstop⟩ := h.within hp
  obtain ⟨-, hstart', hstop'⟩ := h.within hq
  obtain hlt | heq | hlt := Nat.lt_trichotomy (area p) (area q)
  · exact .inl (Nat.le_trans hstop (Nat.le_trans (h.monotone_border hlt) hstart'))
  · exact h.apart_of_area hp hq heq hne
  · exact .inr (Nat.le_trans hstop' (Nat.le_trans (h.monotone_border hlt) hstart))

end Ranges

/-- In a frame that has been laid out, whatever stack blocks have been taken out of its spill area,
all areas are valid. Outgoing, spill, monitor and save slots and stack blocks are word aligned,
inside the frame and pairwise disjoint; incoming arguments start behind the return address. A frame
from slot counts is the least that leaves the stack pointer aligned, and a request for a block that
fails leaves the frame as it is. -/
theorem disjoint_of_laidOut {start : Frame} (h : start.LaidOut) (sizes : List Nat) :
    let f := start.addBlocks sizes
    f.fault? = none ∧
    (∀ p r, f.range? p = some r → r.offset % slotSize = 0 ∧ r.offset + r.size ≤ f.size) ∧
    (∀ p q r r', f.range? p = some r → f.range? q = some r' → p ≠ q → r.Apart r') ∧
    (∀ n, f.slotOffset (.incoming n) = f.size + slotSize + n * slotSize) ∧
    (∀ outgoing spills monitors saved, start = compute outgoing spills monitors saved →
      (f.size + slotSize) % stackAlign = 0 ∧
      f.size < (outgoing + spills + monitors + saved.length) * slotSize + stackAlign) ∧
    ∀ size g, f.addBlock size = (none, g) → g = f := by
  intro f
  have hordered : f.Ordered := h.ordered.addBlocks sizes
  refine ⟨hordered.fault?, fun p r hr => ?_, fun p q r r' => hordered.apart, fun n => rfl, ?_,
    fun size g => addBlock_none⟩
  · obtain ⟨haligned, -, hstop⟩ := hordered.within hr
    have hle : area p + 1 ≤ 5 := by cases p <;> simp only [area] <;> decide
    exact ⟨haligned, Nat.le_trans hstop (hordered.monotone_border hle)⟩
  · rintro outgoing spills monitors saved rfl
    have hsize : f.size = (compute outgoing spills monitors saved).size := size_addBlocks _ sizes
    simp only [compute, alignUp_stackAlign, slotSize] at hsize
    simp only [hsize, slotSize, stackAlign]
    omega

/-- Two blocks of 12 and 3 bytes, with a request in between that is too large. -/
theorem disjoint_of_laidOut_blocks :
    let saved : List Register := [.general 3, .floating 8]
    let f := (compute 2 6 1 saved).addBlocks [12, 100, 3]
    LaidOut (compute 2 6 1 saved) ∧ f.blocks = [⟨48, 12⟩, ⟨40, 3⟩] ∧
      f.size = 88 ∧ f.spillSlots = 3 ∧
    f.fault? = none ∧ FrameRange.Apart ⟨48, 12⟩ ⟨40, 3⟩ := by
  intro saved f
  have hlaidOut : LaidOut (compute 2 6 1 saved) := .compute 2 6 1 saved
  obtain ⟨hfault, -, hapart, -⟩ := disjoint_of_laidOut hlaidOut [12, 100, 3]
  exact ⟨hlaidOut, by decide, by decide, by decide, hfault,
    hapart (.block 0) (.block 1) _ _ rfl rfl (by decide)⟩

end Frame

end MachineCode
