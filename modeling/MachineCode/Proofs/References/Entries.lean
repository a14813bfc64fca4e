import MachineCode.Proofs.Effects.Context

/-! The entries of a data section. Each lies inside the section, at a multiple of its alignment, and
stays there while the section grows. -/
namespace MachineCode

theorem dvd_alignUp {n align : Nat} (h : align ≠ 0) : align ∣ alignUp n align := by
  have hmax : Nat.max align 1 = align := Nat.max_eq_left (Nat.pos_of_ne_zero h)
  have hlt : n % align < align := Nat.mod_lt n (Nat.pos_of_ne_zero h)
  rw [alignUp, hmax]
  apply Nat.dvd_of_mod_eq_zero
  rw [← Nat.mod_add_mod, Nat.add_mod_mod]
  obtain hzero | hpos := Nat.eq_zero_or_pos (n % align)
  · rw [hzero, Nat.zero_add, Nat.sub_zero, Nat.mod_self]
  · rw [Nat.add_sub_cancel' (Nat.le_of_lt hlt), Nat.mod_self]

namespace DataSection

/-- Constants and slots lie inside the section and are aligned. -/
structure Placed (s : DataSection) : Prop where
  inside : ∀ e ∈ s.constants, e.2 + e.1.bytes.length ≤ s.size
  aligned : ∀ e ∈ s.constants, e.1.align ≠ 0 → e.1.align ∣ e.2
  slots : ∀ e ∈ s.slots, e.2 + 8 ≤ s.size ∧ 8 ∣ e.2

variable {s : DataSection}

theorem placed_empty : empty.Placed := ⟨nofun, nofun, nofun⟩

theorem mem_of_lookup {α β : Type} [DecidableEq α] {xs : List (α × β)} {a : α} {b : β}
    (h : xs.lookup a = some b) : (a, b) ∈ xs := by
  obtain ⟨pre, post, rfl, -⟩ := List.lookup_eq_some_iff.mp h
  simp

/-- Bytes are appended behind all entries. -/
theorem Placed.emitAligned (h : s.Placed) (bytes : List UInt8) (align : Nat) :
    (s.emitAligned bytes align).2.Placed ∧
      (s.emitAligned bytes align).1 + bytes.length = (s.emitAligned bytes align).2.size ∧
      (align ≠ 0 → align ∣ (s.emitAligned bytes align).1) := by
  have hsize := s.size_emitAligned bytes align
  have hle : s.size ≤ (s.emitAligned bytes align).2.size := by
    rw [hsize]
    exact Nat.le_add_right_of_le (le_alignUp s.size align)
  exact ⟨⟨fun e he => Nat.le_trans (h.inside e he) hle, h.aligned,
    fun e he => ⟨Nat.le_trans (h.slots e he).1 hle, (h.slots e he).2⟩⟩, hsize.symm, dvd_alignUp⟩

/-- A step on the section gives the offset of an entry. -/
theorem Placed.constant (h : s.Placed) (bytes : List UInt8) (align : Nat) :
    (s.constant bytes align).2.Placed ∧
    (⟨bytes, align⟩, (s.constant bytes align).1) ∈ (s.constant bytes align).2.constants := by
  unfold DataSection.constant
  cases hlookup : s.constants.lookup ⟨bytes, align⟩ with
  | some offset => exact ⟨h, mem_of_lookup hlookup⟩
  | none =>
    obtain ⟨hplaced, hsize, haligned⟩ := h.emitAligned bytes align
    generalize s.emitAligned bytes align = appended at hplaced hsize haligned ⊢
    exact ⟨⟨List.forall_mem_cons.mpr ⟨Nat.le_of_eq hsize, hplaced.inside⟩,
      List.forall_mem_cons.mpr ⟨haligned, hplaced.aligned⟩, hplaced.slots⟩, List.mem_cons_self⟩

theorem Placed.objectSlot (h : s.Placed) (o : ObjectId) : (s.objectSlot o).2.Placed ∧
    (o, (s.objectSlot o).1.1) ∈ (s.objectSlot o).2.slots := by
  unfold DataSection.objectSlot
  cases hlookup : s.slots.lookup o with
  | some offset => exact ⟨h, mem_of_lookup hlookup⟩
  | none =>
    obtain ⟨hplaced, hsize, haligned⟩ := h.emitAligned (leBytes 8 0) 8
    rw [length_leBytes] at hsize
    generalize s.emitAligned (leBytes 8 0) 8 = appended at hplaced hsize haligned ⊢
    exact ⟨⟨hplaced.inside, hplaced.aligned, List.forall_mem_cons.mpr
      ⟨⟨Nat.le_of_eq hsize, haligned (by decide)⟩, hplaced.slots⟩⟩, List.mem_cons_self⟩

end DataSection

end MachineCode
