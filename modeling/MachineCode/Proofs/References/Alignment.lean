import MachineCode.Proofs.Installation.Install
import MachineCode.Proofs.References.Methods

/-! Alignment in the installed image. The data section starts at a multiple of 16 of the code,
entries are aligned within it, and jump tables and calls within the code. The base is checked
against the larger of the method's alignment and 16, so a power of two that divides this larger one,
up to 16, divides the addresses of all that is aligned to it. With an entry alignment such as 24,
which is no multiple of 16, the section itself is only aligned to 8. -/
namespace MachineCode

open X64 Lower

namespace Method

/-- In the image at `base` all that has an alignment which divides `g` has an address of this
alignment: the data section and its entries, accesses of 16 bytes, and jump tables. -/
structure AlignedIn (m : Method) (base : Word) (s : DataSection) (g : Nat) : Prop where
  start : g ∣ base.toNat + m.dataStart
  constants : ∀ c offset, (c, offset) ∈ s.constants → c.align ∣ g →
    c.align ∣ base.toNat + m.dataStart + offset
  slots : 8 ∣ g → ∀ o offset, (o, offset) ∈ s.slots → 8 ∣ base.toNat + m.dataStart + offset
  packed : ∀ x ∈ m.tables.relocations, ∀ offset stop, x.kind = .data offset stop →
    ∃ start i, start < x.offset ∧ x.offset + 4 ≤ stop ∧ m.DecodesAt start stop i ∧
      ∀ mem, i.mem? = some (mem, 16) → g ∣ base.toNat + m.dataStart + offset
  tables : 4 ∣ g → ∀ t ∈ m.tables.jumpTables, 4 ∣ base.toNat + t.position

/-- The base that is accepted and the start of the data section are aligned. -/
theorem dvd_of_install {m : Method} {base : Word} {r : Resolver} {image : Array UInt8} {g : Nat}
    (h : m.install base r = .ok image) (hg : g ∣ dataAlign) (hbase : g ∣ m.installAlign) :
    g ∣ base.toNat ∧ g ∣ m.dataStart :=
  ⟨Nat.dvd_trans hbase (install_eq_ok.mp h).1, Nat.dvd_trans hg (dvd_alignUp (by decide))⟩

end Method

/-- Where the base is aligned, so is all that the draft has aligned. -/
theorem Tidy.alignedIn {m : Method} {d : Draft} {base : Word} {g : Nat} (h : Tidy False d)
    (hm : Completed m d) (hg : g ∣ dataAlign) (hbase : g ∣ base.toNat) (hstart : g ∣ m.dataStart) :
    m.AlignedIn base d.data g where
  start := Nat.dvd_add hbase hstart
  constants c offset hmem hc := by
    have hpos : c.align ≠ 0 := by
      intro hzero
      have hdvd : 0 ∣ dataAlign := hzero ▸ Nat.dvd_trans hc hg
      cases Nat.eq_zero_of_zero_dvd hdvd
    exact Nat.dvd_add (Nat.dvd_trans hc (Nat.dvd_add hbase hstart)) (h.data.aligned _ hmem hpos)
  slots h8 o offset hmem :=
    Nat.dvd_add (Nat.dvd_trans h8 (Nat.dvd_add hbase hstart)) (h.data.slots _ hmem).2
  packed x hx offset stop hkind := by
    obtain ⟨start, i, hlow, hhigh, hdecodes, -, hfits⟩ := h.exists_access hm hx hkind
    refine ⟨start, i.decoded, hlow, hhigh, hdecodes, fun mem hsize => ?_⟩
    have h16 : 16 ∣ offset := hfits.aligned (by rw [Decoded.accessSize, hsize]; rfl)
    exact Nat.dvd_add (Nat.dvd_add hbase hstart) (Nat.dvd_trans hg h16)
  tables h4 t ht := by
    rw [hm.tables] at ht
    exact Nat.dvd_add (Nat.dvd_trans h4 hbase) (h.tables t ht)

/-- A method is installed with its alignments up to 16, as far as the alignment of its base has
them. Direct calls that are to be aligned have their displacements at multiples of 4. -/
theorem alignedIn_of_install {target : Target} {frame : Frame} {name : String} {id : Option UInt32}
    {constants : List DataConstant} {ops : List Operation} {d d' : Draft} {m : Method} {base : Word}
    {r : Resolver} {image : Array UInt8} {g : Nat} (hd : Draft.start target frame name id = .ok d)
    (hm : method constants ops d = .ok m d') (hinstall : m.install base r = .ok image)
    (hg : g ∣ dataAlign) (halign : g ∣ m.installAlign) :
    m.AlignedIn base d'.data g ∧ (target.options.alignDirectCalls = true → 4 ∣ g →
      ∀ x ∈ m.tables.relocations, ∀ callee, x.kind = .call callee → 4 ∣ base.toNat + x.offset) := by
  obtain ⟨htidy, htarget, hcompleted⟩ := tidy_of_method False.elim hd hm
  obtain ⟨hbase, hstart⟩ := Method.dvd_of_install hinstall hg halign
  refine ⟨htidy.alignedIn hcompleted hg hbase hstart, fun hcalls h4 x hx callee hkind => ?_⟩
  rw [hcompleted.tables] at hx
  exact Nat.dvd_add (Nat.dvd_trans h4 hbase) (htidy.calls x hx (htarget ▸ hcalls) callee hkind)

/-- A method at a multiple of 64 that changes the sign of a double, switches and calls. -/
theorem alignedIn_of_install_switch :
    let target : Target :=
      ⟨{ Options.standard with codeEntryAlignment := 64, alignDirectCalls := true },
        ⟨true, true⟩, 4096⟩
    let double : Operand := .reg ⟨.floating, 0⟩ .double
    let ops : List Operation :=
      [.negate double double, .tableSwitch (.reg ⟨.general, 0⟩ .int) 0 [⟨0⟩, ⟨0⟩] ⟨0⟩, .label ⟨0⟩,
        .directCall (.runtime .debug) ⟨0, 0, []⟩]
    let r : Resolver := ⟨fun _ => some 0x1000, fun _ => none⟩
    let base : Word := 0x40
    ∃ d d' m image, Draft.start target .empty "switch" none = .ok d ∧
      method [⟨[7], 1⟩] ops d = .ok m d' ∧ m.install base r = .ok image ∧ 16 ∣ dataAlign ∧
      16 ∣ m.installAlign ∧ m.AlignedIn base d'.data 16 ∧
      ∀ x ∈ m.tables.relocations, ∀ callee, x.kind = .call callee → 4 ∣ base.toNat + x.offset := by
  intro target double ops r base
  let journal := (Journal.start "switch" none []).log (.compiling "switch" none 0 0)
  let d : Draft := ⟨target, .empty, .empty, .empty, .empty, #[], journal, "prologue"⟩
  have hd : Draft.start target .empty "switch" none = .ok d := rfl
  have hinstalls : Step.succeeds (fun m _ => m.installAlign == 64 && (m.install base r).isOk)
      (method [⟨[7], 1⟩] ops d) = true := by decide +kernel
  obtain ⟨m, d', hm, hinstalls⟩ := Step.exists_of_succeeds hinstalls
  rw [Bool.and_eq_true, beq_iff_eq] at hinstalls
  obtain ⟨halign, himage⟩ := hinstalls
  have h16 : 16 ∣ m.installAlign := by
    rw [halign]
    decide
  cases hinstall : m.install base r with
  | error err =>
    rw [hinstall] at himage
    cases himage
  | ok image =>
    obtain ⟨haligned, hcalls⟩ := alignedIn_of_install hd hm hinstall (by decide) h16
    exact ⟨d, d', m, image, hd, hm, hinstall, by decide, h16, haligned, hcalls rfl (by decide)⟩

end MachineCode
