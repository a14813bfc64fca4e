import MachineCode.Machine.State
import MachineCode.Proofs.Emission.Instructions
import MachineCode.Proofs.Installation.Install

/-! Installed methods. In the image every call goes to the address of its target, and every
reference to the data section to its entry. -/
namespace MachineCode

open X64 Chunk Piece

/-! ### Addresses -/

theorem branchTarget?_call {base a : Word} {d : Int32} {p n : Nat}
    (hd : d.toInt = a.toNat - (base.toNat + p + n)) :
    (Decoded.call (.rel d)).branchTarget? (base + BitVec.ofNat 64 p) n = some a := by
  have hoperands : (Decoded.call (.rel d)).insn.operands = [.rel d] := rfl
  have hsum : (a.toNat : Int) = base.toNat + p + n + d.toInt := by omega
  have hword : ∀ v : Word, BitVec.ofInt 64 v.toNat = v := fun v => by
    rw [BitVec.ofInt_natCast, BitVec.ofNat_toNat, BitVec.setWidth_eq]
  simp only [Decoded.branchTarget?, Insn.branchTarget?, hoperands, List.findSome?_cons]
  rw [← hword a, hsum, BitVec.ofInt_add, BitVec.ofInt_add, BitVec.ofInt_add, hword,
    BitVec.ofInt_natCast, BitVec.ofInt_natCast]

theorem effectiveAddress_rip {base : Word} {d : Int32} {stop target : Nat}
    (hd : d.toInt = target - stop) (machine : Machine) :
    machine.effectiveAddress (.rip d) (base + BitVec.ofNat 64 stop) =
      base + BitVec.ofNat 64 target := by
  have hsum : (target : Int) = d.toInt + stop := by omega
  have haddress : machine.effectiveAddress (.rip d) (base + BitVec.ofNat 64 stop) =
      BitVec.ofInt 64 d.toInt + (base + BitVec.ofNat 64 stop) := BitVec.add_zero _
  rw [haddress, ← BitVec.ofInt_natCast 64 target, hsum, BitVec.ofInt_add, BitVec.ofInt_natCast,
    ← BitVec.add_assoc, ← BitVec.add_assoc, BitVec.add_comm base]

namespace Method

variable (m : Method) (base : Word) (r : Resolver) (is : List (Nat × Decoded × Nat))

/-- The instruction `y` of the code, as it is decoded from the image, has the field of `x`. -/
structure HoldsField (image : Array UInt8) (x : Relocation) (y : Nat × Decoded × Nat)
    (i : Decoded) : Prop where
  start : y.1 < x.offset
  stop : x.offset + x.kind.width ≤ y.1 + y.2.2
  decodes : decode (image.toList.drop y.1) = some (i, y.2.2)

/-- What a field refers to in the image. -/
def LinkedAt (image : Array UInt8) (x : Relocation) : Prop :=
  match x.kind with
  | .object o => ∃ a, r.object o = some a ∧ BytesAt image x.offset (leBytes 8 a.toNat)
  | .call target => ∃ a, r.call target = some a ∧ ∃ y ∈ is, ∃ i, HoldsField image x y i ∧
    i.branchTarget? (base + BitVec.ofNat 64 y.1) y.2.2 = some a
  | .data dataOffset _ => ∃ y ∈ is, ∃ i mem n, HoldsField image x y i ∧
    i.mem? = some (mem, n) ∧ mem.isRip ∧ ∀ machine : Machine,
      machine.effectiveAddress mem (base + BitVec.ofNat 64 (y.1 + y.2.2)) =
        base + BitVec.ofNat 64 (m.dataStart + dataOffset)

/-- An image in which all symbols have their addresses, and everything else is as it was. -/
structure Linked (image : Array UInt8) : Prop extends Filled m base r image where
  linked : ∀ x ∈ m.tables.relocations, m.LinkedAt base r is image x

/-- Installation at `base`: a misaligned base is refused, symbols without an address in reach are
refused, and otherwise there is a linked image. -/
structure Installs : Prop where
  misaligned : ∀ b align, m.install base r = .error (.misalignedInstallBase b align) ↔
    ¬ max m.entryAlignment 16 ∣ base.toNat ∧ b = base.toNat ∧ align = max m.entryAlignment 16
  succeeds : max m.entryAlignment 16 ∣ base.toNat →
    ((∃ image, m.install base r = .ok image) ↔
      (∀ x ∈ m.tables.relocations, m.Linkable base r x) ∧
        ∀ x ∈ m.tables.dataObjects, ∃ a, r.object x.object = some a)
  linked : ∀ image, m.install base r = .ok image → m.Linked base r is image

end Method

namespace Laid

variable {cs : List Chunk} {m : Method} {d : Draft} {base : Word} {r : Resolver}
  {image : Array UInt8} {p : Nat} {x : Relocation}

/-- Fields lie in their chunks, and slots where they have been put. -/
theorem fields (h : Laid cs m d) : m.Fields where
  inside x hx := by
    obtain ⟨p, c, hmem, hx⟩ := h.exists_chunk hx
    have hinside := (relocation?_inside hx).2
    have hle := (placed_le hmem).2
    rw [h.size_eq]
    simp only at hle
    omega
  apart := by
    rw [h.relocations_eq]
    refine List.Pairwise.filterMap _ (fun y z hyz x hx x' hx' => ?_) (pairwise_placed cs 0)
    have hinside := (relocation?_inside hx).2
    have hstart := (relocation?_inside hx').1
    omega
  slots := by
    have hslots := h.sound.slots
    have htables : m.tables.dataObjects = d.tables.dataObjects := by rw [h.tables]
    rw [htables, h.data]
    exact hslots

/-- In a chunk only the field of its own relocation changes. -/
theorem getElem?_image (h : Laid cs m d) (hf : m.Filled base r image) {c : Chunk}
    (hc : (p, c) ∈ placed 0 cs) {j : Nat} (hlow : p ≤ j) (hhigh : j < p + c.size)
    (hj : ∀ x, c.relocation? p = some x → j < x.offset ∨ x.offset + x.kind.width ≤ j) :
    image[j]? = m.code[j]? := by
  have hle := (placed_le hc).2
  simp only at hle
  refine hf.code j (by rw [h.size_eq]; omega) fun x hx => ?_
  obtain ⟨p', c', hc', hx⟩ := h.exists_chunk hx
  obtain ⟨hstart, hstop⟩ := relocation?_inside hx
  obtain heq | hlt | hlt := placed_apart hc hc'
  · cases heq
    exact hj x hx
  · simp only at hlt
    exact .inl (by omega)
  · simp only at hlt
    exact .inr (by omega)

/-- The relocation of a chunk is one of the method's. -/
theorem relocation_mem (h : Laid cs m d) {c : Chunk} (hc : (p, c) ∈ placed 0 cs)
    (hx : c.relocation? p = some x) : x ∈ m.tables.relocations := by
  rw [← Array.mem_toList_iff, h.relocations_eq]
  exact List.mem_filterMap.mpr ⟨(p, c), hc, hx⟩

/-- A chunk without a field is in the image as it is in the code. -/
theorem bytesAt_plain (h : Laid cs m d) (hf : m.Filled base r image) {c : Chunk}
    (hc : (p, c) ∈ placed 0 cs) (hx : c.relocation? p = none) :
    BytesAt image p (render d.buffer.labelOffset p c.pieces) := by
  obtain ⟨rest, hrest⟩ := h.drop_code hc
  refine (BytesAt.of_drop hrest).congr fun j hlow hhigh => ?_
  rw [length_render] at hhigh
  exact h.getElem?_image hf hc hlow hhigh fun x hx' => absurd (hx.symm.trans hx') (by simp)

/-- The bytes of an instruction in the image: those of the encoding, with its field filled in. -/
theorem bytesAt_image (h : Laid cs m d) (hf : m.Filled base r image) {i : Instr}
    {link : Option Link} (hc : (p, instr i link) ∈ placed 0 cs)
    (hx : (instr i link).relocation? p = some x) {front old new back : List UInt8}
    (hbytes : i.encode.bytes = front ++ (old ++ back)) (hfront : x.offset = p + front.length)
    (hold : old.length = x.kind.width) (hnew : new.length = x.kind.width)
    (hat : BytesAt image x.offset new) :
    BytesAt image p (front ++ (new ++ back)) := by
  obtain ⟨rest, hrest⟩ := h.drop_code hc
  have hcode : BytesAt m.code p (front ++ (old ++ back)) := by
    have hdrop : m.code.toList.drop p = front ++ (old ++ back) ++ rest := by
      simpa [pieces, render, hbytes] using hrest
    exact BytesAt.of_drop hdrop
  obtain ⟨hcodeFront, hcodeRest⟩ := BytesAt.append_iff.mp hcode
  obtain ⟨-, hcodeBack⟩ := BytesAt.append_iff.mp hcodeRest
  have hsize : (instr i link).size = front.length + (old.length + back.length) := by
    rw [size_instr, Encoding.length, hbytes, List.length_append, List.length_append]
  have houtside : ∀ j, p ≤ j → j < p + (instr i link).size →
      (j < x.offset ∨ x.offset + x.kind.width ≤ j) → image[j]? = m.code[j]? :=
        fun j hlow hhigh hj =>
    h.getElem?_image hf hc hlow hhigh fun x' hx' => by
      cases hx.symm.trans hx'
      exact hj
  rw [BytesAt.append_iff, BytesAt.append_iff, ← hfront]
  refine ⟨hcodeFront.congr fun j hlow hhigh => ?_, hat, ?_⟩
  · exact houtside j hlow (by omega) (.inl (by omega))
  · rw [hnew, ← hold, hfront]
    refine hcodeBack.congr fun j hlow hhigh => ?_
    exact houtside j (by omega) (by omega) (.inr (by omega))

/-- The address of an object is the immediate of its move. -/
theorem bytesAt_object (h : Laid cs m d) (hf : m.Filled base r image) {dst : Gpr} {v : UInt64}
    {o : ObjectId} (hc : (p, instr (.movAbs dst v) (some (.object o))) ∈ placed 0 cs) :
    ∃ a : Word, r.object o = some a ∧ BytesAt image p (Instr.movAbs dst ⟨a⟩).encode.bytes := by
  let front := ((((Opcode.one 0xB8).withWide true).plus dst.low3).bare 0 dst.num.val).bytes
  have hbytes :
      ∀ w : UInt64, (Instr.movAbs dst w).encode.bytes = front ++ (leBytes 8 w.toNat ++ []) :=
    fun w => by simp [Instr.encode, Instr.encodeMovAbs, Encoding.withImmediate, front]
  have hfront : front.length = (Instr.movAbs dst v).encode.length - 8 := by
    rw [Encoding.length, hbytes, List.length_append, List.length_append, length_leBytes]
    rfl
  have hx : (instr (.movAbs dst v) (some (.object o))).relocation? p =
      some ⟨p + front.length, .object o⟩ := by
    rw [hfront]
    rfl
  obtain ⟨bs, hbs, hat⟩ := hf.fields _ (h.relocation_mem hc hx)
  obtain ⟨a, ha, rfl⟩ := Method.relocated_object.mp hbs
  refine ⟨a, ha, ?_⟩
  rw [hbytes]
  exact h.bytesAt_image hf hc hx (hbytes v) rfl (length_leBytes 8 _) (length_leBytes 8 _) hat

/-- The displacement of a call leads to the address of its target. -/
theorem bytesAt_call (h : Laid cs m d) (hf : m.Filled base r image) {i : Instr}
    {target : CallTarget} (hc : (p, instr i (some (.call target))) ∈ placed 0 cs) :
    ∃ (a : Word) (disp : Int32), i = .call ∧ r.call target = some a ∧
      disp.toInt = a.toNat - (base.toNat + p + 5) ∧
      BytesAt image p ([0xE8] ++ leBytes 4 disp.toUInt32.toNat) := by
  have hi : i = .call := by
    have hvalid := (h.sound.valid _ hc).2 _ rfl
    by_contra hne
    simp [Link.field?, hne] at hvalid
  subst hi
  have hx : (instr .call (some (.call target))).relocation? p = some ⟨p + 1, .call target⟩ := rfl
  obtain ⟨bs, hbs, hat⟩ := hf.fields _ (h.relocation_mem hc hx)
  obtain ⟨a, ha, disp, hdisp, rfl⟩ := Method.relocated_call.mp hbs
  have hbytes : Instr.call.encode.bytes = [0xE8] ++ (leBytes 4 0 ++ []) := rfl
  have himage := h.bytesAt_image hf hc hx hbytes rfl rfl (length_leBytes 4 _) hat
  rw [List.append_nil] at himage
  exact ⟨a, disp, rfl, ha, by omega, himage⟩

/-- A reference to the data section has the displacement to its entry, wherever the field stands in
the instruction. The length of the instruction is the same. -/
theorem bytesAt_data (h : Laid cs m d) (hf : m.Filled base r image) {i : Instr} {offset : Nat}
    (hc : (p, instr i (some (.data offset))) ∈ placed 0 cs) :
    ∃ disp : Int32, i.mem? = some (.rip 0) ∧
      disp.toInt = (m.dataStart + offset : Nat) - (p + i.encode.length : Nat) ∧
      (i.withMem (.rip disp)).encode.bytes.length = i.encode.length ∧
      BytesAt image p (i.withMem (.rip disp)).encode.bytes := by
  have hi : i.mem? = some (.rip 0) := by
    have hvalid := (h.sound.valid _ hc).2 _ rfl
    by_contra hne
    simp [Link.field?, hne] at hvalid
  obtain ⟨front, back, -, hzero, haround⟩ := Instr.exists_around_zero hi
  have hx : (instr i (some (.data offset))).relocation? p =
      some ⟨p + front.length, .data offset (p + i.encode.length)⟩ := by
    simp only [relocation?, Link.field?, if_pos hi]
    rw [hzero]
    rfl
  obtain ⟨bs, hbs, hat⟩ := hf.fields _ (h.relocation_mem hc hx)
  obtain ⟨disp, hdisp, rfl⟩ := Method.relocated_data.mp hbs
  have hbytes : (i.withMem (.rip disp)).encode.bytes =
      front ++ (leBytes 4 disp.toUInt32.toNat ++ back) := by rw [haround disp]
  refine ⟨disp, hi, by omega, ?_, ?_⟩
  · rw [hbytes, Encoding.length, hzero]
    simp
  · rw [hbytes]
    exact h.bytesAt_image hf hc hx (by rw [hzero]) rfl (length_leBytes 4 _) (length_leBytes 4 _) hat

/-- A call goes to the address of its target. -/
theorem linkedAt_call (h : Laid cs m d) (hf : m.Filled base r image) {i : Instr}
    {target : CallTarget} (hc : (p, instr i (some (.call target))) ∈ placed 0 cs)
    (hx : (instr i (some (.call target))).relocation? p = some x) :
    m.LinkedAt base r (Chunk.instructions d.buffer.labelOffset 0 cs) image x := by
  have hinside := relocation?_inside hx
  obtain ⟨a, disp, rfl, ha, hdisp, hat⟩ := h.bytesAt_call hf hc
  obtain ⟨rest, hrest⟩ := hat.drop
  cases hx
  refine ⟨a, ha, _, mem_instructions hc rfl, .call (.rel disp), ⟨hinside.1, hinside.2, ?_⟩, ?_⟩
  · rw [hrest]
    exact Instr.decodes_call disp rest
  · exact branchTarget?_call hdisp

/-- A reference to the data section is to its entry. -/
theorem linkedAt_data (h : Laid cs m d) (hf : m.Filled base r image) {i : Instr} {offset : Nat}
    (hc : (p, instr i (some (.data offset))) ∈ placed 0 cs)
    (hx : (instr i (some (.data offset))).relocation? p = some x) :
    m.LinkedAt base r (Chunk.instructions d.buffer.labelOffset 0 cs) image x := by
  have hinside := relocation?_inside hx
  obtain ⟨disp, hi, hdisp, hlen, hat⟩ := h.bytesAt_data hf hc
  obtain ⟨rest, hrest⟩ := hat.drop
  obtain ⟨_, _, k, ⟨⟩, -, rfl⟩ := relocation?_eq_some hx
  have hrip : (i.withMem (.rip disp)).mem? = some (.rip disp) := Instr.mem?_withMem hi
  obtain ⟨n, hn⟩ := Instr.exists_mem?_decoded hrip
  refine ⟨_, mem_instructions hc rfl, (i.withMem (.rip disp)).decoded, .rip disp, n,
    ⟨hinside.1, hinside.2, ?_⟩, hn, rfl, effectiveAddress_rip hdisp⟩
  rw [hrest, size_instr, ← hlen]
  exact Instr.decodes_encode _ (Instr.encodable_withMem_rip hi disp) rest

theorem linkedAt (h : Laid cs m d) (hf : m.Filled base r image)
    (hmem : x ∈ m.tables.relocations) :
    m.LinkedAt base r (Chunk.instructions d.buffer.labelOffset 0 cs) image x := by
  obtain ⟨p, c, hc, hx⟩ := h.exists_chunk hmem
  obtain ⟨i, link, k, rfl, hk, hkind⟩ := relocation?_eq_some hx
  cases link with
  | object o =>
    obtain ⟨bs, hbs, hat⟩ := hf.fields x hmem
    subst hkind
    obtain ⟨a, ha, rfl⟩ := Method.relocated_object.mp hbs
    exact ⟨a, ha, hat⟩
  | call target => exact h.linkedAt_call hf hc hx
  | data offset => exact h.linkedAt_data hf hc hx

end Laid

theorem Finished.installs {cs : List Chunk} {m : Method} {d : Draft} (h : Finished cs m d)
    (base : Word) (r : Resolver) :
    m.Installs base r (Chunk.instructions d.buffer.labelOffset 0 cs) where
  misaligned _ _ := Method.install_eq_misaligned
  succeeds := Method.exists_install
  linked image himage := by
    have hf := Method.filled_of_install h.fields himage
    exact { hf with linked := fun x hx => h.linkedAt hf hx }

/-- When no template inserts bytes of its own, every method that compiles has its fields apart from
each other, and it can be installed at every aligned base from which all its symbols are in
reach. -/
theorem installs_of_compile {target : Target} {source : MethodSource} {m : Method}
    (hops : ∀ op ∈ source.ops, op.RawFree) (hm : (compile target source).1 = .ok m) :
    ∃ is, m.instructions? = some is ∧ m.Fields ∧ ∀ base r, m.Installs base r is := by
  obtain ⟨cs, d, h⟩ := exists_finished_of_compile hops hm
  exact ⟨_, h.instructions?_eq, h.fields, h.installs⟩

/-- A method that calls the runtime, and loads a reference from the data section. -/
theorem installs_of_compile_caller :
    let target : Target := ⟨Options.standard, ⟨true, true⟩, 4096⟩
    let load : Operation := .move (.const (.object ⟨7⟩)) (.reg (.general 0) .object)
    let source : MethodSource := ⟨"caller", none, .empty, [],
      [.directCall (.runtime .debug) ⟨0, 0, []⟩, load, .ret none]⟩
    ∃ m, (compile target source).1 = .ok m ∧
      ∃ is, m.instructions? = some is ∧ m.Fields ∧ ∀ base r, m.Installs base r is := by
  intro target load source
  have hops : ∀ op ∈ source.ops, op.RawFree := by simp [source, load, Operation.RawFree]
  have hok : (compile target source).1.isOk = true := by decide +kernel
  cases hm : (compile target source).1 with
  | ok m => exact ⟨m, rfl, installs_of_compile hops hm⟩
  | error e =>
    rw [hm] at hok
    cases hok

end MachineCode
