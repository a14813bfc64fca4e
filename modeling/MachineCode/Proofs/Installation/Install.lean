import MachineCode.Proofs.Emission.Sound
import MachineCode.Proofs.Installation.Fields
import MachineCode.Proofs.Steps

/-! Installation of methods whose fields do not overlap. It succeeds when every symbol has an
address in reach, and all it changes are the fields and the slots. -/
namespace MachineCode

open CodeBuffer (overwrite)

/-- The number has a 32-bit displacement. -/
def FitsDisplacement (v : Int) : Prop := -2 ^ 31 ≤ v ∧ v < 2 ^ 31

theorem int32?_eq_some {v : Int} {d : Int32} : int32? v = some d ↔ d.toInt = v := by
  constructor
  · exact toInt_of_int32?
  · rintro rfl
    exact int32?_toInt d

theorem fitsDisplacement_iff {v : Int} : FitsDisplacement v ↔ ∃ d : Int32, d.toInt = v := by
  rw [FitsDisplacement, ← int32?_isSome, Option.isSome_iff_exists]
  simp only [int32?_eq_some]

theorem displacement32_eq_ok {v : Int} {d : Int32} : displacement32 v = .ok d ↔ d.toInt = v := by
  rw [← int32?_eq_some, displacement32]
  cases int32? v <;> simp

theorem Method.callDisplacement_eq_ok {base a : Word} {offset : Nat} {d : Int32} :
    Method.callDisplacement base offset a = .ok d ↔
      d.toInt = a.toNat - (base.toNat + offset + 4) := by
  rw [← int32?_eq_some]
  simp only [Method.callDisplacement]
  cases int32? ((a.toNat : Int) - (base.toNat + offset + 4)) <;> simp

namespace Resolver

variable {r : Resolver} {a : Word}

theorem objectAddress_eq_ok {o : ObjectId} : r.objectAddress o = .ok a ↔ r.object o = some a := by
  unfold objectAddress
  cases r.object o <;> simp

theorem callAddress_eq_ok {target : CallTarget} :
    r.callAddress target = .ok a ↔ r.call target = some a := by
  unfold callAddress
  cases r.call target <;> simp

end Resolver

namespace Method

variable {m : Method} {base : Word} {r : Resolver} {image : Array UInt8}

/-- The fields lie in the code and the slots in the data, and no two of them overlap. -/
structure Fields (m : Method) : Prop where
  inside : ∀ x ∈ m.tables.relocations, x.offset + x.kind.width ≤ m.code.size
  apart : m.tables.relocations.toList.Pairwise fun x y => x.offset + x.kind.width ≤ y.offset
  slots : Slots m.tables.dataObjects m.data.size

/-- The symbol of a field has an address, and a displacement fits. -/
def Linkable (m : Method) (base : Word) (r : Resolver) (x : Relocation) : Prop :=
  match x.kind with
  | .object o => ∃ a, r.object o = some a
  | .call target => ∃ a, r.call target = some a ∧
    FitsDisplacement (a.toNat - (base.toNat + x.offset + 4))
  | .data dataOffset stop => FitsDisplacement (m.dataStart + dataOffset - stop)

/-- What is written into a slot. -/
def slotBytes (r : Resolver) (x : DataObject) : Except Error (List UInt8) := do
  return leBytes 8 (← r.objectAddress x.object).toNat

/-! ### Layout -/

theorem size_code_le (m : Method) : m.code.size ≤ m.dataStart := by
  rw [dataStart, alignUp]
  exact Nat.le_add_right _ _

@[simp] theorem size_layout (m : Method) : m.layout.size = m.imageSize := by
  have := m.size_code_le
  simp only [layout, imageSize, Array.size_append, Array.size_replicate]
  omega

theorem getElem?_layout_code {i : Nat} (h : i < m.code.size) : m.layout[i]? = m.code[i]? := by
  rw [layout, Array.append_assoc, Array.getElem?_append_left h]

theorem getElem?_layout_padding {i : Nat} (hlow : m.code.size ≤ i) (hhigh : i < m.dataStart) :
    m.layout[i]? = some 0 := by
  have hsize : i < (m.code ++ Array.replicate (m.dataStart - m.code.size) (0 : UInt8)).size := by
    simp only [Array.size_append, Array.size_replicate]
    omega
  rw [layout, Array.getElem?_append_left hsize, Array.getElem?_append_right hlow,
    Array.getElem?_replicate, if_pos (by omega)]

theorem getElem?_layout_data (i : Nat) : m.layout[m.dataStart + i]? = m.data[i]? := by
  have := m.size_code_le
  have hsize : (m.code ++ Array.replicate (m.dataStart - m.code.size) (0 : UInt8)).size =
      m.dataStart := by
    simp only [Array.size_append, Array.size_replicate]
    omega
  rw [layout, Array.getElem?_append_right (by omega), hsize, Nat.add_sub_cancel_left]

/-! ### What is written -/

section Relocated

variable {offset : Nat} {bs : List UInt8}

theorem relocated_object {o : ObjectId} : m.relocated base r ⟨offset, .object o⟩ = .ok bs ↔
    ∃ a, r.object o = some a ∧ leBytes 8 a.toNat = bs := by
  simp only [relocated, Step.except_bind_eq_ok, Resolver.objectAddress_eq_ok,
    Step.except_pure_eq_ok]

theorem relocated_call {target : CallTarget} : m.relocated base r ⟨offset, .call target⟩ = .ok bs ↔
    ∃ a, r.call target = some a ∧ ∃ d : Int32, d.toInt = a.toNat - (base.toNat + offset + 4) ∧
      leBytes 4 d.toUInt32.toNat = bs := by
  simp only [relocated, Step.except_bind_eq_ok, Resolver.callAddress_eq_ok, callDisplacement_eq_ok,
    Step.except_pure_eq_ok]

theorem relocated_data {dataOffset stop : Nat} :
    m.relocated base r ⟨offset, .data dataOffset stop⟩ = .ok bs ↔
      ∃ d : Int32, d.toInt = m.dataStart + dataOffset - stop ∧ leBytes 4 d.toUInt32.toNat = bs := by
  simp only [relocated, Step.except_bind_eq_ok, displacement32_eq_ok, Step.except_pure_eq_ok]

end Relocated

/-- A field can be filled when its symbol has an address in reach. -/
theorem exists_relocated {x : Relocation} :
    (∃ bs, m.relocated base r x = .ok bs) ↔ m.Linkable base r x := by
  obtain ⟨offset, kind⟩ := x
  cases kind with
  | object o =>
    simp only [relocated_object, Linkable]
    exact ⟨fun ⟨_, a, ha, _⟩ => ⟨a, ha⟩, fun ⟨a, ha⟩ => ⟨_, a, ha, rfl⟩⟩
  | call target =>
    simp only [relocated_call, Linkable, fitsDisplacement_iff]
    constructor
    · rintro ⟨_, a, ha, d, hd, -⟩
      exact ⟨a, ha, d, hd⟩
    · rintro ⟨a, ha, d, hd⟩
      exact ⟨_, a, ha, d, hd, rfl⟩
  | data dataOffset stop =>
    simp only [relocated_data, Linkable, fitsDisplacement_iff]
    exact ⟨fun ⟨_, d, hd, _⟩ => ⟨d, hd⟩, fun ⟨d, hd⟩ => ⟨_, d, hd, rfl⟩⟩

theorem length_relocated {x : Relocation} {bs : List UInt8} (h : m.relocated base r x = .ok bs) :
    bs.length = x.kind.width := by
  obtain ⟨offset, kind⟩ := x
  cases kind with
  | object o =>
    obtain ⟨a, -, rfl⟩ := relocated_object.mp h
    exact length_leBytes 8 _
  | call target =>
    obtain ⟨a, -, d, -, rfl⟩ := relocated_call.mp h
    exact length_leBytes 4 _
  | data dataOffset stop =>
    obtain ⟨d, -, rfl⟩ := relocated_data.mp h
    exact length_leBytes 4 _

theorem slotBytes_eq_ok {x : DataObject} {bs : List UInt8} : slotBytes r x = .ok bs ↔
    ∃ a, r.object x.object = some a ∧ leBytes 8 a.toNat = bs := by
  simp only [slotBytes, Step.except_bind_eq_ok, Resolver.objectAddress_eq_ok,
    Step.except_pure_eq_ok]

theorem length_slotBytes {x : DataObject} {bs : List UInt8} (h : slotBytes r x = .ok bs) :
    bs.length = 8 := by
  obtain ⟨a, -, rfl⟩ := slotBytes_eq_ok.mp h
  exact length_leBytes 8 _

/-- Nothing that is written depends on an alignment. -/
theorem relocated_ne_misaligned {x : Relocation} {b align : Nat} :
    m.relocated base r x ≠ .error (.misalignedInstallBase b align) := by
  obtain ⟨offset, kind⟩ := x
  cases kind with
  | object o =>
    simp only [relocated, Resolver.objectAddress]
    cases r.object o <;> exact nofun
  | call target =>
    simp only [relocated, Resolver.callAddress]
    cases r.call target with
    | none => exact nofun
    | some a =>
      simp only [bind, Except.bind, callDisplacement]
      cases int32? ((a.toNat : Int) - (base.toNat + offset + 4)) <;> exact nofun
  | data dataOffset stop =>
    simp only [relocated, displacement32]
    cases int32? ((m.dataStart : Int) + dataOffset - stop) <;> exact nofun

theorem slotBytes_ne_misaligned {x : DataObject} {b align : Nat} :
    slotBytes r x ≠ .error (.misalignedInstallBase b align) := by
  simp only [slotBytes, Resolver.objectAddress]
  cases r.object x.object <;> exact nofun

/-! ### Images -/

/-- The layout with the fields of the code filled in. -/
def fillFields (m : Method) (base : Word) (r : Resolver) : Except Error (Array UInt8) :=
  fill Relocation.offset (m.relocated base r) m.layout m.tables.relocations.toList

/-- An image with the slots filled in. -/
def fillSlots (m : Method) (r : Resolver) (image : Array UInt8) : Except Error (Array UInt8) :=
  fill (m.dataStart + ·.dataOffset) (slotBytes r) image m.tables.dataObjects.toList

theorem install_eq (h : max m.entryAlignment 16 ∣ base.toNat) :
    m.install base r = m.fillFields base r >>= m.fillSlots r := by
  have hslot : m.fillSlot r = fun image x =>
      return overwrite image (m.dataStart + x.dataOffset) (← slotBytes r x) := by
    funext image x
    simp only [fillSlot, slotBytes, bind_assoc, pure_bind]
  have halign : ¬ base.toNat % m.installAlign ≠ 0 := not_not.mpr (Nat.mod_eq_zero_of_dvd h)
  rw [install, if_neg halign, hslot]
  rfl

theorem install_misaligned (h : ¬ max m.entryAlignment 16 ∣ base.toNat) : m.install base r =
    .error (.misalignedInstallBase base.toNat (max m.entryAlignment 16)) := by
  have halign : base.toNat % m.installAlign ≠ 0 := fun h' => h (Nat.dvd_of_mod_eq_zero h')
  rw [install, if_pos halign]
  rfl

/-- The fields are filled in, and then the slots. -/
theorem install_eq_ok : m.install base r = .ok image ↔ max m.entryAlignment 16 ∣ base.toNat ∧
    ∃ linked, m.fillFields base r = .ok linked ∧ m.fillSlots r linked = .ok image := by
  by_cases h : max m.entryAlignment 16 ∣ base.toNat
  · simp only [install_eq h, Step.except_bind_eq_ok, h, true_and]
  · simp [install_misaligned h, h]

/-- The alignment of the base is complained about exactly when it is wrong. -/
theorem install_eq_misaligned {b align : Nat} :
    m.install base r = .error (.misalignedInstallBase b align) ↔
      ¬ max m.entryAlignment 16 ∣ base.toNat ∧ b = base.toNat ∧
      align = max m.entryAlignment 16 := by
  by_cases h : max m.entryAlignment 16 ∣ base.toNat
  · refine ⟨fun hinstall => ?_, fun h' => absurd h h'.1⟩
    rw [install_eq h] at hinstall
    cases hfields : m.fillFields base r with
    | error e =>
      rw [hfields] at hinstall
      cases hinstall
      obtain ⟨x, -, hx⟩ := error_of_fill hfields
      exact absurd hx relocated_ne_misaligned
    | ok linked =>
      rw [hfields] at hinstall
      obtain ⟨x, -, hx⟩ := error_of_fill hinstall
      exact absurd hx slotBytes_ne_misaligned
  · rw [install_misaligned h]
    constructor
    · rintro ⟨⟩
      exact ⟨h, rfl, rfl⟩
    · rintro ⟨-, rfl, rfl⟩
      rfl

theorem exists_fillFields : (∃ linked, m.fillFields base r = .ok linked) ↔
    ∀ x ∈ m.tables.relocations, m.Linkable base r x := by
  simp only [fillFields, exists_fill_iff, Array.mem_toList_iff, exists_relocated]

theorem exists_fillSlots : (∃ image', m.fillSlots r image = .ok image') ↔
    ∀ x ∈ m.tables.dataObjects, ∃ a, r.object x.object = some a := by
  simp only [fillSlots, exists_fill_iff, Array.mem_toList_iff, slotBytes_eq_ok]
  exact forall₂_congr fun x _ => ⟨fun ⟨_, a, ha, _⟩ => ⟨a, ha⟩, fun ⟨a, ha⟩ => ⟨_, a, ha, rfl⟩⟩

/-- On an aligned base installation succeeds when all symbols have addresses in reach. -/
theorem exists_install (h : max m.entryAlignment 16 ∣ base.toNat) :
    (∃ image, m.install base r = .ok image) ↔
      (∀ x ∈ m.tables.relocations, m.Linkable base r x) ∧
        ∀ x ∈ m.tables.dataObjects, ∃ a, r.object x.object = some a := by
  simp only [install_eq_ok, h, true_and, ← exists_fillFields]
  constructor
  · rintro ⟨image, linked, hlinked, himage⟩
    exact ⟨⟨linked, hlinked⟩, exists_fillSlots.mp ⟨image, himage⟩⟩
  · rintro ⟨⟨linked, hlinked⟩, hslots⟩
    obtain ⟨image, himage⟩ := exists_fillSlots.mpr hslots
    exact ⟨image, linked, hlinked, himage⟩

/-- The offset belongs to none of the fields. -/
def OutsideFields (m : Method) (i : Nat) : Prop :=
  ∀ x ∈ m.tables.relocations, i < x.offset ∨ x.offset + x.kind.width ≤ i

/-- The offset in the data belongs to none of the slots. -/
def OutsideSlots (m : Method) (i : Nat) : Prop :=
  ∀ x ∈ m.tables.dataObjects, i < x.dataOffset ∨ x.dataOffset + 8 ≤ i

/-- The image of a method at `base`, byte by byte. -/
structure Filled (m : Method) (base : Word) (r : Resolver) (image : Array UInt8) : Prop where
  size : image.size = m.imageSize
  fields : ∀ x ∈ m.tables.relocations, ∃ bs, m.relocated base r x = .ok bs ∧
    BytesAt image x.offset bs
  slots : ∀ x ∈ m.tables.dataObjects, ∃ a, r.object x.object = some a ∧
    BytesAt image (m.dataStart + x.dataOffset) (leBytes 8 a.toNat)
  code : ∀ i < m.code.size, m.OutsideFields i → image[i]? = m.code[i]?
  padding : ∀ i, m.code.size ≤ i → i < m.dataStart → image[i]? = some 0
  data : ∀ i, m.OutsideSlots i → image[m.dataStart + i]? = m.data[i]?

section Filling

variable {linked : Array UInt8} {i : Nat}

theorem size_fillFields (h : m.fillFields base r = .ok linked) : linked.size = m.imageSize := by
  rw [size_fill h, size_layout]

/-- An image ends behind the data. -/
theorem size_of_install (h : m.install base r = .ok image) : image.size = m.imageSize := by
  obtain ⟨-, linked, hlinked, hfilled⟩ := install_eq_ok.mp h
  rw [size_fill hfilled, size_fillFields hlinked]

theorem getElem?_fillFields_of_outside (h : m.fillFields base r = .ok linked)
    (hi : m.OutsideFields i) : linked[i]? = m.layout[i]? :=
  getElem?_fill_of_outside (fun _ _ _ => length_relocated)
    (fun x hx => hi x (Array.mem_toList_iff.mp hx)) h

/-- No field lies behind the code. -/
theorem Fields.outside (hm : m.Fields) (hi : m.code.size ≤ i) : m.OutsideFields i := by
  intro x hx
  have := hm.inside x hx
  exact .inr (by omega)

theorem getElem?_fillSlots_of_outside (h : m.fillSlots r linked = .ok image)
    (hi : m.OutsideSlots i) : image[m.dataStart + i]? = linked[m.dataStart + i]? := by
  refine getElem?_fill_of_outside (fun _ _ _ => length_slotBytes) (fun x hx => ?_) h
  have := hi x (Array.mem_toList_iff.mp hx)
  omega

/-- No slot lies in front of the data. -/
theorem getElem?_fillSlots_of_lt (h : m.fillSlots r linked = .ok image) (hi : i < m.dataStart) :
    image[i]? = linked[i]? :=
  getElem?_fill_of_outside (fun _ _ _ => length_slotBytes) (fun x _ => .inl (by omega)) h

theorem Fields.bytesAt_fillFields (hm : m.Fields) (h : m.fillFields base r = .ok linked)
    {x : Relocation} (hx : x ∈ m.tables.relocations) :
    ∃ bs, m.relocated base r x = .ok bs ∧ BytesAt linked x.offset bs := by
  have hinside : ∀ y ∈ m.tables.relocations.toList,
      y.offset + y.kind.width ≤ m.layout.size := by
    intro y hy
    have := hm.inside y (Array.mem_toList_iff.mp hy)
    have := m.size_code_le
    rw [size_layout, imageSize]
    omega
  exact bytesAt_fill (fun _ _ _ => length_relocated) hinside hm.apart h x
    (Array.mem_toList_iff.mpr hx)

theorem Fields.bytesAt_fillSlots (hm : m.Fields) (hsize : linked.size = m.imageSize)
    (h : m.fillSlots r linked = .ok image) {x : DataObject} (hx : x ∈ m.tables.dataObjects) :
    ∃ a, r.object x.object = some a ∧
      BytesAt image (m.dataStart + x.dataOffset) (leBytes 8 a.toNat) := by
  have hinside : ∀ y ∈ m.tables.dataObjects.toList,
      m.dataStart + y.dataOffset + 8 ≤ linked.size := by
    intro y hy
    have := hm.slots.inside y (Array.mem_toList_iff.mp hy)
    rw [hsize, imageSize]
    omega
  have hapart : m.tables.dataObjects.toList.Pairwise fun x y =>
      m.dataStart + x.dataOffset + 8 ≤ m.dataStart + y.dataOffset :=
    hm.slots.apart.imp fun {_ _} hle => by omega
  obtain ⟨bs, hbs, hat⟩ := bytesAt_fill (fun _ _ _ => length_slotBytes) hinside hapart h x
    (Array.mem_toList_iff.mpr hx)
  obtain ⟨a, ha, rfl⟩ := slotBytes_eq_ok.mp hbs
  exact ⟨a, ha, hat⟩

end Filling

/-- An installed method has its fields and slots filled in, and nothing else is changed. -/
theorem filled_of_install (hm : m.Fields) (h : m.install base r = .ok image) :
    m.Filled base r image := by
  obtain ⟨-, linked, hlinked, hfilled⟩ := install_eq_ok.mp h
  have hcode := m.size_code_le
  have hsize := size_fillFields hlinked
  constructor
  · exact size_of_install h
  · intro x hx
    obtain ⟨bs, hbs, hat⟩ := hm.bytesAt_fillFields hlinked hx
    refine ⟨bs, hbs, hat.congr fun i _ hi => getElem?_fillSlots_of_lt hfilled ?_⟩
    have := hm.inside x hx
    rw [length_relocated hbs] at hi
    omega
  · exact fun x hx => hm.bytesAt_fillSlots hsize hfilled hx
  · intro i hi houtside
    rw [getElem?_fillSlots_of_lt hfilled (by omega),
      getElem?_fillFields_of_outside hlinked houtside, getElem?_layout_code hi]
  · intro i hlow hhigh
    rw [getElem?_fillSlots_of_lt hfilled hhigh,
      getElem?_fillFields_of_outside hlinked (hm.outside hlow), getElem?_layout_padding hlow hhigh]
  · intro i houtside
    rw [getElem?_fillSlots_of_outside hfilled houtside,
      getElem?_fillFields_of_outside hlinked (hm.outside (by omega)), getElem?_layout_data]

end Method

end MachineCode
