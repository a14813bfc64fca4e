import MachineCode.Proofs.Decoding.Operands

/-! The forms of opcodes read back. Bytes decode when the decoder takes exactly these bytes and
gives the same instruction whatever follows them. -/
namespace MachineCode.X64

/-- The bytes are one instruction, whatever follows them. -/
def Decodes (bytes : List UInt8) (i : Decoded) : Prop :=
  ∀ rest, decode (bytes ++ rest) = some (i, bytes.length)

/-- A lock prefix, if there is one. -/
def lockByte (lock : Bool) : List UInt8 := if lock then [0xF0] else []

theorem decodes_of_reads {o : Opcode} (lock : Bool) (ho : o.escaped ∨ startsOpcode o.byte)
    {r rm index : Nat} {tail : List UInt8} {i : Decoded}
    (h : Reader.Reads (Decoded.read { o.prefixes r rm index with lock })
      (o.escapedByte ++ tail) i) :
    Decodes (lockByte lock ++ (o.bytes r rm index ++ tail)) i := by
  intro rest
  have hlock : Prefixes.empty.legacy 0 (lockByte lock ++ (o.bytes r rm index ++ (tail ++ rest))) =
      { Prefixes.empty with lock }.legacy (lockByte lock).length
        (o.bytes r rm index ++ (tail ++ rest)) := by
    cases lock <;> rfl
  have hfound := o.takeRex_legacy ho r rm index (lockByte lock).length lock (tail ++ rest)
  simp only [decode, List.append_assoc, hlock] at hfound ⊢
  rw [hfound, ← List.append_assoc, h rest]
  have hlen : o.escapedByte.length ≤ (o.bytes r rm index).length := by
    simp only [Opcode.bytes_eq, List.length_append]
    omega
  simp only [Option.map_some, List.length_append, Option.some.injEq, Prod.mk.injEq, true_and]
  omega

/-- A byte that stands for a form is no prefix and no escape. -/
theorem startsOpcode_of_form {b : UInt8} {form : OpcodeForm}
    (h : OpcodeForm.ofByte? b = some form) :
    startsOpcode b ∧ b ≠ 0x0F := by
  have hall : ∀ n : Fin 256, (OpcodeForm.ofByte? (UInt8.ofNat n.val)).isSome →
      startsOpcode (UInt8.ofNat n.val) ∧ UInt8.ofNat n.val ≠ 0x0F := by decide +kernel
  have hb := hall ⟨b.toNat, b.toNat_lt⟩
  simp only [UInt8.ofNat_toNat, h, Option.isSome_some, forall_const] at hb
  exact hb

theorem decodes_form {o : Opcode} {form : OpcodeForm} (he : o.escaped = false)
    (hform : OpcodeForm.ofByte? o.byte = some form) {r rm index : Nat} {tail : List UInt8}
    {i : Decoded} (h : Reader.Reads (form.read (o.prefixes r rm index)) tail i) :
    Decodes (o.bytes r rm index ++ tail) i := by
  obtain ⟨hstart, h0F⟩ := startsOpcode_of_form hform
  have hread : Reader.Reads (Decoded.read (o.prefixes r rm index)) (o.escapedByte ++ tail) i := by
    simp only [Opcode.escapedByte, he]
    unfold Decoded.read
    apply Reader.Reads.byte_bind
    simp only [h0F, if_false, hform]
    exact h
  exact decodes_of_reads false (.inr hstart) hread

theorem decodes_escapedForm {o : Opcode} {form : EscapedForm} (lock : Bool) (he : o.escaped = true)
    (hform : EscapedForm.ofByte? o.byte = some form) {r rm index : Nat}
    {tail : List UInt8} {i : Decoded}
    (h : Reader.Reads (form.read { o.prefixes r rm index with lock }) tail i) :
    Decodes (lockByte lock ++ (o.bytes r rm index ++ tail)) i := by
  apply decodes_of_reads lock (.inl he)
  simp only [Opcode.escapedByte, he]
  unfold Decoded.read
  apply Reader.Reads.byte_bind
  simp only [if_true]
  apply Reader.Reads.byte_bind
  simp only [hform]
  exact h

theorem Prefixes.width_ne_byte (p : Prefixes) : p.width ≠ .byte := by
  unfold width
  split
  · simp
  · split <;> simp

theorem Width.ofWide_ne_byte (wide : Bool) : Width.ofWide wide ≠ .byte := by
  cases wide <;> simp [ofWide]

theorem Opcode.prefixes_width {o : Opcode} (h : o.data16 = false) (r rm index : Nat) :
    (o.prefixes r rm index).width = .ofWide o.wide := by
  rw [Prefixes.width, prefixes_wide]
  cases hw : o.wide <;> simp [prefixes, h, Width.ofWide]

theorem Opcode.prefixes_intWidth (o : Opcode) (r rm index : Nat) :
    (o.prefixes r rm index).intWidth = .ofWide o.wide := by
  rw [Prefixes.intWidth, prefixes_wide]

namespace Reader

variable {p : Prefixes} {r : Fin 16}

theorem reads_regRm {x : Rm} {w v : Width} (hx : x.Encodable)
    (hp : Agrees p r.val x.num x.indexNum) (hw : w ≠ .byte) (hv : v ≠ .byte) :
    Reads (regRm p w v) (Opcode.rmTail r.val x) (⟨r⟩, x) :=
  (reads_modRm hx hp).bind_nil ((reads_gpr p hw r).bind_nil (reads_rm p hv x).bind_pure)

theorem reads_rmReg {x : Rm} {w : Width} (hx : x.Encodable)
    (hp : Agrees p r.val x.num x.indexNum) (hw : w ≠ .byte) :
    Reads (rmReg p w) (Opcode.rmTail r.val x) (x, ⟨r⟩) :=
  (reads_modRm hx hp).bind_nil ((reads_rm p hw x).bind_nil (reads_gpr p hw r).bind_pure)

theorem reads_modRm_ext {ext : Nat} (hext : ext < 8) {x : Rm} (hx : x.Encodable)
    (hp : Agrees p ext x.num x.indexNum) :
    Reads (modRm p) (Opcode.rmTail ext x) ⟨Fin.ofNat 16 ext, ext, x.operand⟩ := by
  have h16 : (Fin.ofNat 16 ext).val = ext := Nat.mod_eq_of_lt (by omega)
  have h8 : (Fin.ofNat 16 ext).val % 8 = ext := by rw [h16, Nat.mod_eq_of_lt hext]
  have h := reads_modRm (p := p) (r := Fin.ofNat 16 ext) hx (by rw [h16]; exact hp)
  rwa [h8, h16] at h

theorem reads_immediate {w : Width} (hw : w = .dword ∨ w = .qword) (imm : Int32) :
    Reads (immediate w) (Instr.imm32 imm) imm.toInt := by
  have hword : w ≠ .word := by rintro rfl; simp at hw
  rw [immediate, if_neg hword]
  exact (reads_int32 imm).bind_pure

theorem reads_xmmXm {x : Xm} (hx : x.rm.Encodable) (hp : Agrees p r.val x.rm.num x.rm.indexNum) :
    Reads (xmmXm p) (Opcode.rmTail r.val x.rm) (⟨r⟩, x) :=
  (reads_modRm hx hp).bind_nil (by rw [xm_operand]; exact reads_pure _)

end Reader

/-! ### General instructions -/

open Reader Opcode

variable {o : Opcode} {dst : Gpr} {x : Rm}

theorem decodes_aluLoad {op : AluOp} (he : o.escaped = false) (hd : o.data16 = false)
    (hform : OpcodeForm.ofByte? o.byte = some (.aluLoad op)) (hx : x.Encodable) :
    Decodes (o.regRm dst.num.val x).bytes (.alu op (.ofWide o.wide) (.reg dst) (.rm x)) := by
  rw [bytes_regRm, ← prefixes_width hd dst.num.val x.num x.indexNum]
  exact decodes_form he hform ((reads_regRm hx (agrees_prefixes o _ _ _) (Prefixes.width_ne_byte _)
    (Prefixes.width_ne_byte _)).bind_nil (reads_pure _))

theorem decodes_aluStore {op : AluOp} (he : o.escaped = false) (hd : o.data16 = false)
    (hform : OpcodeForm.ofByte? o.byte = some (.aluStore op)) (hx : x.Encodable) :
    Decodes (o.regRm dst.num.val x).bytes (.alu op (.ofWide o.wide) x (.rm (.reg dst))) := by
  rw [bytes_regRm, ← prefixes_width hd dst.num.val x.num x.indexNum]
  exact decodes_form he hform ((reads_rmReg hx (agrees_prefixes o _ _ _)
    (Prefixes.width_ne_byte _)).bind_nil (reads_pure _))

theorem decodes_movStore (he : o.escaped = false)
    (hform : OpcodeForm.ofByte? o.byte = some (.movStore false)) (hx : x.Encodable) :
    Decodes (o.regRm dst.num.val x).bytes
      (.mov (o.prefixes dst.num.val x.num x.indexNum).width x (.rm (.reg dst))) := by
  rw [bytes_regRm]
  exact decodes_form he hform ((reads_rmReg hx (agrees_prefixes o _ _ _)
    (Prefixes.width_ne_byte _)).bind_nil (reads_pure _))

theorem decodes_movLoad (he : o.escaped = false) (hd : o.data16 = false)
    (hform : OpcodeForm.ofByte? o.byte = some (.movLoad false)) (hx : x.Encodable) :
    Decodes (o.regRm dst.num.val x).bytes (.mov (.ofWide o.wide) (.reg dst) (.rm x)) := by
  rw [bytes_regRm, ← prefixes_width hd dst.num.val x.num x.indexNum]
  exact decodes_form he hform ((reads_regRm hx (agrees_prefixes o _ _ _) (Prefixes.width_ne_byte _)
    (Prefixes.width_ne_byte _)).bind_nil (reads_pure _))

theorem decodes_test (he : o.escaped = false) (hd : o.data16 = false)
    (hform : OpcodeForm.ofByte? o.byte = some (.test false)) (hx : x.Encodable) :
    Decodes (o.regRm dst.num.val x).bytes (.test (.ofWide o.wide) x (.rm (.reg dst))) := by
  rw [bytes_regRm, ← prefixes_width hd dst.num.val x.num x.indexNum]
  exact decodes_form he hform ((reads_rmReg hx (agrees_prefixes o _ _ _)
    (Prefixes.width_ne_byte _)).bind_nil (reads_pure _))

theorem decodes_lea {m : Mem} (he : o.escaped = false) (hd : o.data16 = false)
    (hform : OpcodeForm.ofByte? o.byte = some .lea) (hm : m.Encodable) :
    Decodes (o.regMem dst.num.val m).bytes (.lea (.ofWide o.wide) dst m) := by
  rw [bytes_regMem, ← prefixes_width hd dst.num.val m.baseNum m.indexNum]
  exact decodes_form he hform ((reads_modRm_mem hm (agrees_prefixes o _ _ _)).bind_nil
    ((reads_gpr _ (Prefixes.width_ne_byte _) _).bind_nil (reads_pure _)))

theorem ofWide_eq (wide : Bool) : Width.ofWide wide = .dword ∨ Width.ofWide wide = .qword := by
  cases wide <;> simp [Width.ofWide]

/-- The form that takes a byte has the low byte as its immediate, and the other one 32 bits. -/
theorem reads_shortImmediate (wide : Bool) (imm : Int32) :
    Reads (shortImmediate (Instr.isImm8 imm) (.ofWide wide))
      (if Instr.isImm8 imm then Instr.imm8 imm else Instr.imm32 imm) imm.toInt := by
  cases h : Instr.isImm8 imm
  · exact reads_immediate (ofWide_eq wide) imm
  · have h8 : Reads int8 (Instr.imm8 imm) _ := reads_int8 imm.toUInt32.toNat
    rwa [bmod_of_byte (of_decide_eq_true h)] at h8

theorem decodes_aluImm {op : AluOp} {byte : Bool} {imm : List UInt8} {v : Int}
    (he : o.escaped = false) (hd : o.data16 = false)
    (hform : OpcodeForm.ofByte? o.byte = some (.aluImm byte)) (hx : x.Encodable)
    (himm : Reads (shortImmediate byte (.ofWide o.wide)) imm v) :
    Decodes ((o.extRm op.code x).withImmediate imm).bytes
      (.alu op (.ofWide o.wide) x (.imm v)) := by
  have hop : op.code < 8 := by cases op <;> decide
  have hw := prefixes_width hd op.code x.num x.indexNum
  rw [Encoding.withImmediate, bytes_extRm o hop, List.append_assoc, ← hw]
  refine decodes_form he hform ((reads_modRm_ext hop hx (agrees_prefixes o _ _ _)).bind ?_)
  rw [← List.nil_append imm]
  apply (reads_rm _ (Prefixes.width_ne_byte _) x).bind
  rw [AluOp.ofCode_code]
  rw [← hw] at himm
  exact himm.bind_pure

theorem decodes_shift {op : Shift} {form : OpcodeForm} {count : Reader ShiftCount}
    {imm : List UInt8} {c : ShiftCount} (he : o.escaped = false) (hd : o.data16 = false)
    (hform : OpcodeForm.ofByte? o.byte = some form) (hread : ∀ p, form.read p = shift p count)
    (hcount : Reads count imm c) :
    Decodes ((o.extReg op.code dst.num.val).withImmediate imm).bytes
      (.shift op (.ofWide o.wide) (.reg dst) c) := by
  have hop : op.code < 8 := by cases op <;> decide
  have hbytes : (o.extReg op.code dst.num.val).bytes = _ := bytes_extRm o hop (.reg dst)
  rw [Encoding.withImmediate, hbytes, List.append_assoc, ← prefixes_width hd op.code _ _]
  apply decodes_form he hform
  rw [hread]
  apply (reads_modRm_ext (x := .reg dst) hop trivial (agrees_prefixes o _ _ _)).bind
  simp only [Shift.ofCode?_code]
  rw [← List.nil_append imm]
  exact (reads_rm _ (Prefixes.width_ne_byte _) (.reg dst)).bind hcount.bind_pure

/-- The group of single operands; 0, and the number 1 that stands for nothing, are left out. -/
theorem decodes_unary {op : UnaryOp} {ext : Nat} (he : o.escaped = false) (hd : o.data16 = false)
    (hform : OpcodeForm.ofByte? o.byte = some .group3)
    (hop : (ext, op) ∈ [(2, UnaryOp.not), (3, .neg), (4, .mul), (5, .imul),
      (6, .div), (7, .idiv)]) :
    Decodes (o.extReg ext dst.num.val).bytes (.unary op (.ofWide o.wide) (.reg dst)) := by
  have hext : ext < 8 := by
    simp only [List.mem_cons, Prod.mk.injEq, List.not_mem_nil, or_false] at hop
    omega
  have hbytes : (o.extReg ext dst.num.val).bytes = _ := bytes_extRm o hext (.reg dst)
  rw [hbytes, ← prefixes_width hd ext _ _]
  refine decodes_form he hform ((reads_modRm_ext (x := .reg dst) hext trivial
    (agrees_prefixes o _ _ _)).bind_nil ?_)
  apply (reads_rm _ (Prefixes.width_ne_byte _) (.reg dst)).bind_nil
  simp only [List.mem_cons, Prod.mk.injEq, List.not_mem_nil, or_false] at hop
  obtain ⟨rfl, rfl⟩ | ⟨rfl, rfl⟩ | ⟨rfl, rfl⟩ | ⟨rfl, rfl⟩ | ⟨rfl, rfl⟩ | ⟨rfl, rfl⟩ := hop <;>
    exact reads_pure _

theorem decodes_group5 {ext : Nat} {i : Decoded} (he : o.escaped = false)
    (hform : OpcodeForm.ofByte? o.byte = some .group5)
    (hi : (ext, i) ∈ [(2, Decoded.call (.rm (.reg dst))), (4, .jmp (.rm (.reg dst)))]) :
    Decodes (o.extReg ext dst.num.val).bytes i := by
  have hext : ext < 8 := by
    simp only [List.mem_cons, Prod.mk.injEq, List.not_mem_nil, or_false] at hi
    omega
  have hbytes : (o.extReg ext dst.num.val).bytes = _ := bytes_extRm o hext (.reg dst)
  rw [hbytes]
  refine decodes_form he hform ((reads_modRm_ext (x := .reg dst) hext trivial
    (agrees_prefixes o _ _ _)).bind_nil ?_)
  apply (reads_rm _ (by simp) (.reg dst)).bind_nil
  simp only [List.mem_cons, Prod.mk.injEq, List.not_mem_nil, or_false] at hi
  obtain ⟨rfl, rfl⟩ | ⟨rfl, rfl⟩ := hi <;> exact reads_pure _

/-- A move of an immediate into a register or memory operand of any width. -/
theorem decodes_movImmRm {byte : Bool} {w : Width} {imm : List UInt8} {v : Int}
    (he : o.escaped = false) (hform : OpcodeForm.ofByte? o.byte = some (.movImmRm byte))
    (hw : (o.prefixes 0 x.num x.indexNum).formWidth byte = w) (hx : x.Encodable)
    (hreg : Reads (Reader.rm (o.prefixes 0 x.num x.indexNum) w x.operand) [] x)
    (himm : Reads (shortImmediate byte w) imm v) :
    Decodes ((o.extRm 0 x).withImmediate imm).bytes (.mov w x (.imm v)) := by
  rw [Encoding.withImmediate, bytes_extRm o (by omega), List.append_assoc]
  apply decodes_form he hform
  unfold OpcodeForm.read
  simp only [hw]
  apply (reads_modRm_ext (by omega) hx (agrees_prefixes o _ _ _)).bind
  rw [← List.nil_append imm]
  apply (reads_pure _).bind
  rw [← List.nil_append imm]
  exact hreg.bind himm.bind_pure

/-- A register whose number is in the opcode. -/
theorem extended_low3 (o : Opcode) (r : Gpr) :
    extended (o.prefixes 0 r.num.val 0).highRm r.low3 = r.num := by
  rw [prefixes_highRm]
  exact extended_eq (Nat.mod_mod _ 8)

theorem decodes_movImm {imm : List UInt8} {v : Int} (he : o.escaped = false)
    (hd : o.data16 = false)
    (hform : OpcodeForm.ofByte? o.byte = some (.movImm dst.low3))
    (himm : Reads (moveImmediate (.ofWide o.wide)) imm v) :
    Decodes ((o.bare 0 dst.num.val).withImmediate imm).bytes
      (.mov (.ofWide o.wide) (.reg dst) (.imm v)) := by
  have hw := prefixes_width hd 0 dst.num.val 0
  rw [← hw] at himm
  rw [← hw]
  apply decodes_form he hform
  have h : Reads (OpcodeForm.read (o.prefixes 0 dst.num.val 0) (.movImm dst.low3)) imm _ :=
    himm.bind_pure
  rwa [extended_low3] at h

theorem decodes_push (he : o.escaped = false)
    (hform : OpcodeForm.ofByte? o.byte = some (.push dst.low3)) :
    Decodes (o.bare 0 dst.num.val).bytes (.push dst) := by
  have h : Reads (OpcodeForm.read (o.prefixes 0 dst.num.val 0) (.push dst.low3)) [] _ :=
    reads_pure _
  rw [extended_low3] at h
  have hd := decodes_form he hform h
  rwa [List.append_nil] at hd

theorem decodes_pop (he : o.escaped = false)
    (hform : OpcodeForm.ofByte? o.byte = some (.pop dst.low3)) :
    Decodes (o.bare 0 dst.num.val).bytes (.pop dst) := by
  have h : Reads (OpcodeForm.read (o.prefixes 0 dst.num.val 0) (.pop dst.low3)) [] _ := reads_pure _
  rw [extended_low3] at h
  have hd := decodes_form he hform h
  rwa [List.append_nil] at hd

theorem decodes_imulImm {byte : Bool} {imm : List UInt8} {v : Int} (he : o.escaped = false)
    (hd : o.data16 = false) (hform : OpcodeForm.ofByte? o.byte = some (.imulImm byte))
    (hx : x.Encodable) (himm : Reads (shortImmediate byte (.ofWide o.wide)) imm v) :
    Decodes ((o.regRm dst.num.val x).withImmediate imm).bytes
      (.imul (.ofWide o.wide) dst x (some v)) := by
  have hw := prefixes_width hd dst.num.val x.num x.indexNum
  rw [← hw] at himm
  rw [Encoding.withImmediate, bytes_regRm, List.append_assoc, ← hw]
  exact decodes_form he hform ((reads_regRm hx (agrees_prefixes o _ _ _) (Prefixes.width_ne_byte _)
    (Prefixes.width_ne_byte _)).bind himm.bind_pure)

theorem decodes_movsxd (he : o.escaped = false) (hd : o.data16 = false)
    (hform : OpcodeForm.ofByte? o.byte = some .movsxd) (hx : x.Encodable) :
    Decodes (o.regRm dst.num.val x).bytes (.movsx (.ofWide o.wide) dst .dword x) := by
  rw [bytes_regRm, ← prefixes_width hd dst.num.val x.num x.indexNum]
  exact decodes_form he hform ((reads_regRm hx (agrees_prefixes o _ _ _) (Prefixes.width_ne_byte _)
    (by simp)).bind_nil (reads_pure _))

end MachineCode.X64
