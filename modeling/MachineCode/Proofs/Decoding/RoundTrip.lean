import MachineCode.Proofs.Decoding.EscapedForms

/-! Decoding undoes encoding. `Instr.decoded` is the instruction that a decoder has to find; the
main statement is that it finds it for every instruction whose memory operand can be encoded. -/
namespace MachineCode.X64

/-- The memory operand of a general operand. -/
def Rm.mem? : Rm → Option Mem
  | .reg _ => none
  | .mem m => some m

/-- The memory operand of a floating-point operand. -/
def Xm.mem? : Xm → Option Mem
  | .reg _ => none
  | .mem m => some m

namespace Instr

/-- The memory operand, if there is one. -/
def mem? : Instr → Option Mem
  | alu _ _ _ x | imul _ _ x | extend _ _ x | cmov _ _ _ x | aluImm _ _ x _ | test _ x _ => x.mem?
  | sse _ _ _ x | ucomis _ _ x | packed _ _ _ x => x.mem?
  | aluStore _ _ m _ | load _ _ m | store _ _ m | storeByte _ m | storeWord _ m | storeImm _ m _
  | lea _ _ m | movsLoad _ _ m | movsStore _ _ m | cmpxchg _ _ m _ => some m
  | _ => none

/-- The memory operand, if there is one, has an encoding. -/
def Encodable (i : Instr) : Prop := ∀ m ∈ i.mem?, m.Encodable

/-- The widths of the destination and the source of an extension. -/
def decodedExtend (dst : Gpr) (src : Rm) : Extension → Decoded
  | .zeroByte => .movzx .dword dst .byte src
  | .zeroWord => .movzx .dword dst .word src
  | .signByte => .movsx .dword dst .byte src
  | .signWord => .movsx .dword dst .word src
  | .signDword => .movsx .qword dst .dword src

/-- The value of the low bytes of a number, signed. -/
def signedAt (w : Width) (v : Int) : Int := v.bmod (2 ^ w.bits)

/-- A move of a 32-bit immediate clears the high half of the register: it is read unsigned. All
other immediates are signed. -/
def decodedMovImm (wide : Bool) (dst : Gpr) (value : UInt64) : Decoded :=
  if !wide || value < 0x100000000 then
    .mov .dword (.reg dst) (.imm (value.toNat % 2 ^ 32 : Nat))
  else .mov .qword (.reg dst) (.imm (signedAt .qword value.toNat))

/-- The instruction that a decoder finds. The registers of a `test`, which is symmetric, are found
in the other order. -/
def decoded : Instr → Decoded
  | alu op wide dst src => .alu op (.ofWide wide) (.reg dst) (.rm src)
  | aluStore op wide dst src => .alu op (.ofWide wide) (.mem dst) (.rm (.reg src))
  | aluImm op wide dst imm => .alu op (.ofWide wide) dst (.imm imm.toInt)
  | neg wide r => .unary .neg (.ofWide wide) (.reg r)
  | not wide r => .unary .not (.ofWide wide) (.reg r)
  | shiftImm op wide r count => .shift op (.ofWide wide) (.reg r) (.imm count)
  | shiftCl op wide r => .shift op (.ofWide wide) (.reg r) .cl
  | mov wide dst src => .mov (.ofWide wide) (.reg dst) (.rm (.reg src))
  | movImm wide dst value => decodedMovImm wide dst value
  | movAbs dst value => .mov .qword (.reg dst) (.imm (signedAt .qword value.toNat))
  | extend ext dst src => decodedExtend dst src ext
  | load wide dst src => .mov (.ofWide wide) (.reg dst) (.rm (.mem src))
  | store wide src dst => .mov (.ofWide wide) (.mem dst) (.rm (.reg src))
  | storeByte src dst => .mov .byte (.mem dst) (.rm (.reg src))
  | storeWord src dst => .mov .word (.mem dst) (.rm (.reg src))
  | storeImm width dst imm => .mov width (.mem dst) (.imm (signedAt width imm.toInt))
  | lea wide dst src => .lea (.ofWide wide) dst src
  | imul wide dst src => .imul (.ofWide wide) dst src none
  | imulImm wide dst src imm => .imul (.ofWide wide) dst (.reg src) (some imm.toInt)
  | div wide r => .unary .div (.ofWide wide) (.reg r)
  | idiv wide r => .unary .idiv (.ofWide wide) (.reg r)
  | cdq => .cdq
  | cqo => .cqo
  | bitScan reverse wide dst src => .bitScan reverse (.ofWide wide) dst (.reg src)
  | call => .call (.rel 0)
  | jmpReg r => .jmp (.rm (.reg r))
  | callReg r => .call (.rm (.reg r))
  | setcc cond dst => .setcc cond (.reg dst)
  | cmov cond wide dst src => .cmov cond (.ofWide wide) dst src
  | test wide (.reg a) b => .test (.ofWide wide) (.reg b) (.rm (.reg a))
  | test wide (.mem a) b => .test (.ofWide wide) (.mem a) (.rm (.reg b))
  | movsLoad double dst src => .movs double (.reg dst) (.mem src)
  | movsStore double src dst => .movs double (.mem dst) (.reg src)
  | movap double dst src => .movap double dst (.reg src)
  | sse op double dst src => .sse op double dst src
  | ucomis double a b => .ucomis double a b
  | packed op double dst src => .packed op double dst src
  | cvtFromInt double wide dst src => .cvtFromInt double (.ofWide wide) dst (.reg src)
  | cvtToInt double wide dst src => .cvtToInt double (.ofWide wide) dst (.reg src)
  | cvtFloat toDouble dst src => .cvtFloat toDouble dst (.reg src)
  | movToXmm wide dst src => .movToXmm (.ofWide wide) dst (.reg src)
  | movFromXmm wide dst src => .movFromXmm (.ofWide wide) (.reg dst) src
  | push r => .push r
  | pop r => .pop r
  | ret => .ret
  | cmpxchg lock wide dst src => .cmpxchg lock (.ofWide wide) (.mem dst) src
  | mfence => .mfence
  | ud2 => .ud2
  | int3 => .int3
  | pause => .pause

end Instr

theorem Rm.encodable_iff {x : Rm} : x.Encodable ↔ ∀ m ∈ x.mem?, m.Encodable := by
  cases x <;> simp [Encodable, mem?]

theorem Xm.rm_mem? (x : Xm) : x.rm.mem? = x.mem? := by cases x <;> rfl

theorem Xm.encodable_iff {x : Xm} : x.rm.Encodable ↔ ∀ m ∈ x.mem?, m.Encodable := by
  rw [Rm.encodable_iff, rm_mem?]

namespace Instr

open Reader Opcode

/-! ### Immediates -/

theorem reads_int32_toInt (n : Nat) :
    Reads (do return (← int32).toInt) (leBytes 4 n) ((n : Int).bmod (2 ^ 32)) := by
  have h : ((n : Int).bmod (2 ^ 32)) = (Int32.ofNat (n % 256 ^ 4)).toInt := by
    rw [Int32.toInt_ofNat', Int.natCast_emod]
    exact (Int.emod_bmod _ _).symm
  rw [h]
  exact (reads_number 4 n).bind_pure.bind_pure

theorem decodes_movImmRm32 (wide : Bool) (dst : Rm) (hdst : dst.Encodable) (n : Nat) :
    Decodes ((((Opcode.one 0xC7).withWide wide).extRm 0 dst).withImmediate (leBytes 4 n)).bytes
      (.mov (.ofWide wide) dst (.imm ((n : Int).bmod (2 ^ 32)))) := by
  refine decodes_movImmRm rfl rfl (prefixes_width rfl 0 dst.num dst.indexNum) hdst
    (reads_rm _ (Width.ofWide_ne_byte _) dst) ?_
  cases wide <;> exact reads_int32_toInt n

theorem decodes_movAbs (dst : Gpr) (value : UInt64) :
    Decodes (encodeMovAbs dst value).bytes
      (.mov .qword (.reg dst) (.imm (signedAt .qword value.toNat))) := by
  have hform : OpcodeForm.ofByte? (0xB8 + UInt8.ofNat dst.low3) = some (.movImm dst.low3) := by
    obtain ⟨n⟩ := dst
    revert n
    decide
  exact decodes_movImm (o := ((Opcode.one 0xB8).withWide true).plus dst.low3) rfl rfl hform
    (reads_int64 value.toNat)

theorem decodes_encodeMovImm (wide : Bool) (dst : Gpr) (value : UInt64) :
    Decodes (encodeMovImm wide dst value).bytes (decodedMovImm wide dst value) := by
  unfold encodeMovImm decodedMovImm
  split
  · have hform : OpcodeForm.ofByte? (0xB8 + UInt8.ofNat dst.low3) = some (.movImm dst.low3) := by
      obtain ⟨n⟩ := dst
      revert n
      decide
    exact decodes_movImm (o := (Opcode.one 0xB8).plus dst.low3) rfl rfl hform
      (reads_number 4 value.toNat).bind_pure
  · rename_i hwide
    split
    · rename_i hsmall
      have hvalue : signedAt .qword value.toNat = (value.toNat : Int).bmod (2 ^ 32) := by
        have hfull : value.toInt64.toInt = (value.toNat : Int).bmod (2 ^ 64) := by
          rw [← Int64.toInt_toBitVec, BitVec.toInt_eq_toNat_bmod]
          rfl
        rw [int32?_isSome, hfull] at hsmall
        have hbits : signedAt .qword value.toNat = (value.toNat : Int).bmod (2 ^ 64) := rfl
        rw [hbits, ← Int.bmod_bmod_of_dvd (by decide : 2 ^ 32 ∣ 2 ^ 64)]
        exact (Int.bmod_eq_of_le (by omega) (by omega)).symm
      rw [hvalue]
      exact decodes_movImmRm32 true (.reg dst) trivial value.toNat
    · exact decodes_movAbs dst value

theorem decodes_storeImm (width : Width) {dst : Mem} (hdst : dst.Encodable) (imm : Int32) :
    Decodes (encodeStoreImm dst imm width).bytes
      (.mov width (.mem dst) (.imm (signedAt width imm.toInt))) := by
  cases width with
  | byte =>
    have himm : Reads int8 (imm8 imm) (imm.toInt.bmod (2 ^ 8)) := by
      rw [← bmod_toUInt32 imm (by decide)]
      exact reads_int8 imm.toUInt32.toNat
    exact decodes_movImmRm (o := .one 0xC6) (x := .mem dst) rfl rfl rfl hdst
      (reads_rm_mem _ _ _) himm
  | word =>
    have himm : Reads int16 (leBytes 2 imm.toUInt32.toNat) (imm.toInt.bmod (2 ^ 16)) := by
      rw [← bmod_toUInt32 imm (by decide)]
      exact reads_int16 imm.toUInt32.toNat
    have hw : ({ Opcode.one 0xC7 with data16 := true }.prefixes 0 dst.baseNum dst.indexNum).width =
        .word := by
      rw [Prefixes.width, prefixes_wide]
      rfl
    exact decodes_movImmRm (o := { Opcode.one 0xC7 with data16 := true }) (x := .mem dst) rfl rfl hw
      hdst (reads_rm_mem _ _ _) himm
  | dword =>
    have h := decodes_movImmRm32 false (.mem dst) hdst imm.toUInt32.toNat
    rwa [bmod_toUInt32 imm (by decide)] at h
  | qword =>
    have h := decodes_movImmRm32 true (.mem dst) hdst imm.toUInt32.toNat
    have hfull : signedAt .qword imm.toInt = imm.toInt.bmod (2 ^ 32) := by
      have hlow := imm.le_toInt
      have hhigh := imm.toInt_lt
      have hbits : signedAt .qword imm.toInt = imm.toInt.bmod (2 ^ 64) := rfl
      rw [hbits, Int.bmod_eq_of_le (by omega) (by omega), Int.bmod_eq_of_le (by omega) (by omega)]
    rw [hfull]
    rwa [bmod_toUInt32 imm (by decide)] at h

/-! ### Families -/

theorem decodes_immForm_alu (op : AluOp) (wide : Bool) {dst : Rm} (hdst : dst.Encodable)
    (imm : Int32) :
    Decodes (aluImm op wide dst imm).encode.bytes (aluImm op wide dst imm).decoded := by
  have himm := reads_shortImmediate wide imm
  simp only [encode, immForm, decoded]
  cases h : isImm8 imm <;> simp only [h] at himm
  · exact decodes_aluImm (o := (Opcode.one 0x81).withWide wide) rfl rfl rfl hdst himm
  · exact decodes_aluImm (o := (Opcode.one 0x83).withWide wide) rfl rfl rfl hdst himm

theorem decodes_immForm_imul (wide : Bool) (dst src : Gpr) (imm : Int32) :
    Decodes (imulImm wide dst src imm).encode.bytes (imulImm wide dst src imm).decoded := by
  have himm := reads_shortImmediate wide imm
  simp only [encode, immForm, decoded]
  cases h : isImm8 imm <;> simp only [h] at himm
  · exact decodes_imulImm (o := (Opcode.one 0x69).withWide wide) (x := .reg src) rfl rfl rfl trivial
      himm
  · exact decodes_imulImm (o := (Opcode.one 0x6B).withWide wide) (x := .reg src) rfl rfl rfl trivial
      himm

theorem decodes_shiftImm (op : Shift) (wide : Bool) (r : Gpr) (count : UInt8) :
    Decodes (shiftImm op wide r count).encode.bytes (shiftImm op wide r count).decoded := by
  simp only [encode, decoded]
  split
  · rename_i h
    rw [h]
    have hd : Decodes ((((Opcode.one 0xD1).withWide wide).extReg op.code r.num.val).withImmediate
        []).bytes (.shift op (.ofWide wide) (.reg r) (.imm 1)) :=
      decodes_shift rfl rfl rfl (fun _ => rfl) (reads_pure _)
    rwa [Encoding.withImmediate, List.append_nil] at hd
  · exact decodes_shift (o := (Opcode.one 0xC1).withWide wide) rfl rfl rfl (fun _ => rfl)
      (reads_byte count).map

theorem decodes_shiftCl (op : Shift) (wide : Bool) (r : Gpr) :
    Decodes (shiftCl op wide r).encode.bytes (shiftCl op wide r).decoded := by
  have hd : Decodes ((((Opcode.one 0xD3).withWide wide).extReg op.code r.num.val).withImmediate
      []).bytes (.shift op (.ofWide wide) (.reg r) .cl) :=
    decodes_shift rfl rfl rfl (fun _ => rfl) (reads_pure _)
  rwa [Encoding.withImmediate, List.append_nil] at hd

/-- A REX byte is there when a byte register asks for it. -/
theorem prefixes_rex_ne_zero {o : Opcode} {r rm index : Nat} (h : o.hasRex r rm index) :
    (o.prefixes r rm index).rex ≠ 0 := by
  have hk := rexBits_lt o r rm index
  rw [prefixes, if_pos h]
  intro h0
  have := congrArg UInt8.toNat h0
  simp only [UInt8.toNat_ofNat', UInt8.toNat_ofNat] at this
  omega

theorem decodes_storeByte (src : Gpr) {dst : Mem} (hdst : dst.Encodable) :
    Decodes (storeByte src dst).encode.bytes (storeByte src dst).decoded := by
  let o := { Opcode.one 0x88 with byteReg := true }
  let p := o.prefixes src.num.val dst.baseNum dst.indexNum
  have hrex : 4 ≤ src.num.val → p.rex ≠ 0 :=
    fun h4 => prefixes_rex_ne_zero (by simp [o, hasRex, h4])
  have hread : Reads (rmReg p .byte) (memTail src.num.val dst) (.mem dst, src) :=
    (reads_modRm_mem hdst (agrees_prefixes o _ _ _)).bind_nil
      ((reads_rm_mem p .byte dst).bind_nil (reads_gpr_byte hrex).bind_pure)
  simp only [encode, decoded, bytes_regMem]
  exact decodes_form (o := o) rfl rfl (hread.bind_nil (reads_pure _))

theorem decodes_storeWord (src : Gpr) {dst : Mem} (hdst : dst.Encodable) :
    Decodes (storeWord src dst).encode.bytes (storeWord src dst).decoded := by
  have hw : ({ Opcode.one 0x89 with data16 := true }.prefixes src.num.val dst.baseNum
      dst.indexNum).width = .word := by
    rw [Prefixes.width, prefixes_wide]
    rfl
  rw [decoded, ← hw]
  exact decodes_movStore (o := { Opcode.one 0x89 with data16 := true }) (x := .mem dst) rfl rfl hdst

theorem decodes_extend (ext : Extension) (dst : Gpr) {src : Rm} (h : src.Encodable) :
    Decodes (extend ext dst src).encode.bytes (extend ext dst src).decoded := by
  -- Only a byte register in the source needs care: it is named with a REX byte.
  have hbyte : ∀ r : Gpr, ∀ o : Opcode, o.byteRm = true →
      Reads (Reader.rm (o.prefixes dst.num.val r.num.val 0) .byte (.reg r.num)) [] (.reg r) := by
    intro r o ho
    refine (reads_gpr_byte fun h4 => prefixes_rex_ne_zero ?_).map
    simp [hasRex, ho, h4]
  cases ext with
  | zeroByte =>
    cases src with
    | reg r =>
      exact decodes_movx (o := { Opcode.two 0xB6 with byteRm := true })
        (x := .reg r) rfl rfl rfl rfl
        trivial (hbyte r _ rfl)
    | mem m =>
      exact decodes_movx (o := .two 0xB6) (x := .mem m) rfl rfl rfl rfl h (reads_rm_mem _ _ _)
  | zeroWord =>
    cases src with
    | reg r =>
      exact decodes_movx (o := .two 0xB7) (x := .reg r) rfl rfl rfl rfl
        h (reads_rm _ (by simp) (.reg r))
    | mem m =>
      exact decodes_movx (o := .two 0xB7) (x := .mem m) rfl rfl rfl rfl h (reads_rm_mem _ _ _)
  | signByte =>
    cases src with
    | reg r =>
      exact decodes_movx (o := { Opcode.two 0xBE with byteRm := true })
        (x := .reg r) rfl rfl rfl rfl
        trivial (hbyte r _ rfl)
    | mem m =>
      exact decodes_movx (o := .two 0xBE) (x := .mem m) rfl rfl rfl rfl h (reads_rm_mem _ _ _)
  | signWord =>
    cases src with
    | reg r =>
      exact decodes_movx (o := .two 0xBF) (x := .reg r) rfl rfl rfl rfl
        h (reads_rm _ (by simp) (.reg r))
    | mem m =>
      exact decodes_movx (o := .two 0xBF) (x := .mem m) rfl rfl rfl rfl h (reads_rm_mem _ _ _)
  | signDword =>
    cases src with
    | reg r =>
      exact decodes_movsxd (o := (Opcode.one 0x63).withWide true) (x := .reg r) rfl rfl rfl h
    | mem m =>
      exact decodes_movsxd (o := (Opcode.one 0x63).withWide true) (x := .mem m) rfl rfl rfl h

theorem decodes_setcc_reg (cond : Cond) (dst : Gpr) :
    Decodes (setcc cond dst).encode.bytes (setcc cond dst).decoded := by
  have hform : EscapedForm.ofByte? (0x90 + UInt8.ofNat cond.code) = some (.setcc cond) := by
    cases cond <;> rfl
  apply decodes_setcc (o := { (Opcode.two 0x90).plus cond.code with byteRm := true }) rfl hform
  intro h4
  exact prefixes_rex_ne_zero (by simp [hasRex, h4])

theorem decodes_test_rm (wide : Bool) {a : Rm} (b : Gpr) (h : a.Encodable) :
    Decodes (test wide a b).encode.bytes (test wide a b).decoded := by
  cases a with
  | reg r =>
    exact decodes_test (o := (Opcode.one 0x85).withWide wide) (x := .reg b) rfl rfl rfl trivial
  | mem m => exact decodes_test (o := (Opcode.one 0x85).withWide wide) (x := .mem m) rfl rfl rfl h

theorem decodes_alu (op : AluOp) (wide : Bool) (dst : Gpr) {src : Rm} (h : src.Encodable) :
    Decodes (alu op wide dst src).encode.bytes (alu op wide dst src).decoded := by
  have hform : OpcodeForm.ofByte? (0x03 + UInt8.ofNat (op.code * 8)) = some (.aluLoad op) := by
    cases op <;> rfl
  exact decodes_aluLoad (o := ((Opcode.one 0x03).plus (op.code * 8)).withWide wide) rfl rfl hform h

theorem decodes_aluStore_mem (op : AluOp) (wide : Bool) {dst : Mem} (src : Gpr)
    (h : dst.Encodable) :
    Decodes (aluStore op wide dst src).encode.bytes (aluStore op wide dst src).decoded := by
  have hform : OpcodeForm.ofByte? (0x01 + UInt8.ofNat (op.code * 8)) = some (.aluStore op) := by
    cases op <;> rfl
  exact decodes_aluStore (o := ((Opcode.one 0x01).plus (op.code * 8)).withWide wide) (x := .mem dst)
    rfl rfl hform h

theorem decodes_mov (wide : Bool) (src : Gpr) {x : Rm} (h : x.Encodable) :
    Decodes (((Opcode.one 0x89).withWide wide).regRm src.num.val x).bytes
      (.mov (.ofWide wide) x (.rm (.reg src))) := by
  have hw : (((Opcode.one 0x89).withWide wide).prefixes src.num.val x.num x.indexNum).width =
      .ofWide wide := prefixes_width rfl _ _ _
  rw [← hw]
  exact decodes_movStore rfl rfl h

theorem decodes_cmov_rm (cond : Cond) (wide : Bool) (dst : Gpr) {src : Rm} (h : src.Encodable) :
    Decodes (cmov cond wide dst src).encode.bytes (cmov cond wide dst src).decoded := by
  have hform : EscapedForm.ofByte? (0x40 + UInt8.ofNat cond.code) = some (.cmov cond) := by
    cases cond <;> rfl
  exact decodes_cmov (o := ((Opcode.two 0x40).plus cond.code).withWide wide) rfl rfl hform h

theorem decodes_push_pop (r : Gpr) :
    Decodes (push r).encode.bytes (push r).decoded ∧
    Decodes (pop r).encode.bytes (pop r).decoded := by
  have hforms : OpcodeForm.ofByte? (0x50 + UInt8.ofNat r.low3) = some (.push r.low3) ∧
      OpcodeForm.ofByte? (0x58 + UInt8.ofNat r.low3) = some (.pop r.low3) := by
    obtain ⟨n⟩ := r
    revert n
    decide
  exact ⟨decodes_push (o := (Opcode.one 0x50).plus r.low3) rfl hforms.1,
    decodes_pop (o := (Opcode.one 0x58).plus r.low3) rfl hforms.2⟩

theorem decodes_movs (double : Bool) (d : Xmm) {m : Mem} (h : m.Encodable) :
    Decodes (movsLoad double d m).encode.bytes (movsLoad double d m).decoded ∧
    Decodes (movsStore double d m).encode.bytes (movsStore double d m).decoded := by
  constructor
  · exact decodes_scalar (o := scalar 0x10 double) (y := .mem m)
      (f := fun p xy => .movs p.repne (.reg xy.1) xy.2) rfl rfl rfl (fun _ => rfl)
      (by cases double <;> rfl) h
  · exact decodes_scalar (o := scalar 0x11 double) (y := .mem m)
      (f := fun p xy => .movs p.repne xy.2 (.reg xy.1)) rfl rfl rfl (fun _ => rfl)
      (by cases double <;> rfl) h

theorem decodes_sse (op : SseOp) (double : Bool) (dst : Xmm) {src : Xm} (h : src.rm.Encodable) :
    Decodes (sse op double dst src).encode.bytes (sse op double dst src).decoded := by
  have hform : EscapedForm.ofByte? op.byte = some (.sse op) := by cases op <;> rfl
  exact decodes_scalar (o := scalar op.byte double) (f := fun p xy => .sse op p.repne xy.1 xy.2)
    rfl rfl hform (fun _ => rfl) (by cases double <;> rfl) h

theorem decodes_cvtFloat (toDouble : Bool) (dst src : Xmm) :
    Decodes (cvtFloat toDouble dst src).encode.bytes (cvtFloat toDouble dst src).decoded :=
  decodes_scalar (o := scalar 0x5A (!toDouble)) (y := .reg src)
    (f := fun p xy => .cvtFloat p.rep xy.1 xy.2) rfl rfl rfl (fun _ => rfl)
    (by cases toDouble <;> rfl) trivial

theorem decodes_packed_xm (op : PackedOp) (double : Bool) (dst : Xmm) {src : Xm}
    (h : src.rm.Encodable) :
    Decodes (packed op double dst src).encode.bytes (packed op double dst src).decoded := by
  cases op with
  | and =>
    exact decodes_packed (o := packedOpcode 0x54 double)
      (f := fun p xy => .packed .and p.data16 xy.1 xy.2) rfl rfl (fun _ => rfl) rfl h
  | xor =>
    exact decodes_packed (o := packedOpcode 0x57 double)
      (f := fun p xy => .packed .xor p.data16 xy.1 xy.2) rfl rfl (fun _ => rfl) rfl h

theorem decodes_cvtInt (double wide : Bool) (r : Gpr) (x : Xmm) :
    Decodes (cvtFromInt double wide x r).encode.bytes (cvtFromInt double wide x r).decoded ∧
    Decodes (cvtToInt double wide r x).encode.bytes (cvtToInt double wide r x).decoded := by
  cases double with
  | false =>
    exact ⟨decodes_cvtFromInt (o := (scalar 0x2A false).withWide wide) rfl rfl rfl,
      decodes_cvtToInt (o := (scalar 0x2C false).withWide wide) rfl rfl rfl⟩
  | true =>
    exact ⟨decodes_cvtFromInt (o := (scalar 0x2A true).withWide wide) rfl rfl rfl,
      decodes_cvtToInt (o := (scalar 0x2C true).withWide wide) rfl rfl rfl⟩

theorem decodes_cmpxchg_mem (lock wide : Bool) {dst : Mem} (src : Gpr) (h : dst.Encodable) :
    Decodes (cmpxchg lock wide dst src).encode.bytes (cmpxchg lock wide dst src).decoded := by
  have hd :
      Decodes (lockByte lock ++ (((Opcode.two 0xB1).withWide wide).regMem src.num.val dst).bytes)
      (.cmpxchg lock (.ofWide wide) (.mem dst) src) :=
    decodes_cmpxchg (x := .mem dst) lock rfl rfl rfl h
  cases lock <;> exact hd

theorem decodes_cdq (wide : Bool) :
    Decodes (((Opcode.one 0x99).withWide wide).bare 0 0).bytes (if wide then .cqo else .cdq) := by
  let o := (Opcode.one 0x99).withWide wide
  have hread :
      Reads (OpcodeForm.read (o.prefixes 0 0 0) .cdq) [] (if wide then .cqo else .cdq) := by
    have h : Reads (OpcodeForm.read (o.prefixes 0 0 0) .cdq) [] _ := reads_pure _
    rwa [prefixes_wide] at h
  have h := decodes_form (o := o) rfl rfl hread
  rwa [List.append_nil] at h

/-- Decoding undoes encoding, whatever bytes follow. -/
theorem decodes_encode (i : Instr) (h : i.Encodable) : Decodes i.encode.bytes i.decoded := by
  cases i with
  | alu op wide dst src => exact decodes_alu op wide dst (Rm.encodable_iff.mpr h)
  | aluStore op wide dst src => exact decodes_aluStore_mem op wide src (h dst rfl)
  | aluImm op wide dst imm => exact decodes_immForm_alu op wide (Rm.encodable_iff.mpr h) imm
  | neg wide r => exact decodes_unary (o := (Opcode.one 0xF7).withWide wide) rfl rfl rfl (by simp)
  | not wide r => exact decodes_unary (o := (Opcode.one 0xF7).withWide wide) rfl rfl rfl (by simp)
  | shiftImm op wide r count => exact decodes_shiftImm op wide r count
  | shiftCl op wide r => exact decodes_shiftCl op wide r
  | mov wide dst src => exact decodes_mov wide src (x := .reg dst) trivial
  | movImm wide dst value => exact decodes_encodeMovImm wide dst value
  | movAbs dst value => exact decodes_movAbs dst value
  | extend ext dst src => exact decodes_extend ext dst (Rm.encodable_iff.mpr h)
  | load wide dst src =>
    exact decodes_movLoad (o := (Opcode.one 0x8B).withWide wide) (x := .mem src) rfl rfl rfl
      (h src rfl)
  | store wide src dst => exact decodes_mov wide src (x := .mem dst) (h dst rfl)
  | storeByte src dst => exact decodes_storeByte src (h dst rfl)
  | storeWord src dst => exact decodes_storeWord src (h dst rfl)
  | storeImm width dst imm => exact decodes_storeImm width (h dst rfl) imm
  | lea wide dst src =>
    exact decodes_lea (o := (Opcode.one 0x8D).withWide wide) rfl rfl rfl (h src rfl)
  | imul wide dst src =>
    exact decodes_imul (o := (Opcode.two 0xAF).withWide wide) rfl rfl rfl (Rm.encodable_iff.mpr h)
  | imulImm wide dst src imm => exact decodes_immForm_imul wide dst src imm
  | div wide r => exact decodes_unary (o := (Opcode.one 0xF7).withWide wide) rfl rfl rfl (by simp)
  | idiv wide r => exact decodes_unary (o := (Opcode.one 0xF7).withWide wide) rfl rfl rfl (by simp)
  | cdq => exact decodes_cdq false
  | cqo => exact decodes_cdq true
  | bitScan reverse wide dst src =>
    cases reverse
    · exact decodes_bitScan (o := (Opcode.two 0xBC).withWide wide)
        (x := .reg src) rfl rfl rfl trivial
    · exact decodes_bitScan (o := (Opcode.two 0xBD).withWide wide)
        (x := .reg src) rfl rfl rfl trivial
  | call => exact fun _ => rfl
  | jmpReg r => exact decodes_group5 (o := .one 0xFF) rfl rfl (by simp [decoded])
  | callReg r => exact decodes_group5 (o := .one 0xFF) rfl rfl (by simp [decoded])
  | setcc cond dst => exact decodes_setcc_reg cond dst
  | cmov cond wide dst src => exact decodes_cmov_rm cond wide dst (Rm.encodable_iff.mpr h)
  | test wide a b => exact decodes_test_rm wide b (Rm.encodable_iff.mpr h)
  | movsLoad double dst src => exact (decodes_movs double dst (h src rfl)).1
  | movsStore double src dst => exact (decodes_movs double src (h dst rfl)).2
  | movap double dst src =>
    exact decodes_packed (o := packedOpcode 0x28 double) (y := .reg src)
      (f := fun p xy => .movap p.data16 xy.1 xy.2) rfl rfl (fun _ => rfl) rfl trivial
  | sse op double dst src => exact decodes_sse op double dst (Xm.encodable_iff.mpr h)
  | ucomis double a b =>
    exact decodes_packed (o := packedOpcode 0x2E double)
      (f := fun p xy => .ucomis p.data16 xy.1 xy.2) rfl rfl (fun _ => rfl) rfl
      (Xm.encodable_iff.mpr h)
  | packed op double dst src => exact decodes_packed_xm op double dst (Xm.encodable_iff.mpr h)
  | cvtFromInt double wide dst src => exact (decodes_cvtInt double wide src dst).1
  | cvtToInt double wide dst src => exact (decodes_cvtInt double wide dst src).2
  | cvtFloat toDouble dst src => exact decodes_cvtFloat toDouble dst src
  | movToXmm wide dst src =>
    exact decodes_movToXmm (o := (packedOpcode 0x6E true).withWide wide) rfl rfl rfl
  | movFromXmm wide dst src =>
    exact decodes_movFromXmm (o := (packedOpcode 0x7E true).withWide wide) rfl rfl rfl
  | push r => exact (decodes_push_pop r).1
  | pop r => exact (decodes_push_pop r).2
  | ret => exact fun _ => rfl
  | cmpxchg lock wide dst src => exact decodes_cmpxchg_mem lock wide src (h dst rfl)
  | mfence => exact fun _ => rfl
  | ud2 => exact fun _ => rfl
  | int3 => exact fun _ => rfl
  | pause => exact fun _ => rfl

/-! ### Lengths -/

theorem length_bytes_le (o : Opcode) (r rm index : Nat) : (o.bytes r rm index).length ≤ 5 := by
  have hrep : (repBytes o.rep).length ≤ 1 := by obtain _ | _ | _ := o.rep <;> decide
  have hrex : (o.rex r rm index).length ≤ 1 := by rw [rex_eq]; split <;> simp
  have hescaped : o.escapedByte.length ≤ 2 := by
    rw [escapedByte]
    split <;> simp
  have hsize : (if o.data16 then [(0x66 : UInt8)] else []).length ≤ 1 := by split <;> simp
  simp only [bytes_eq, List.length_append]
  omega

theorem length_displacement_le (base : Nat) (d : Int32) :
    (Opcode.displacement base d).2.length ≤ 4 := by
  unfold Opcode.displacement
  split
  · simp
  · split <;> simp

theorem length_memTail_le (r : Nat) (m : Mem) : (memTail r m).length ≤ 6 := by
  obtain ⟨base, index, d⟩ := m
  cases base with
  | none => simp [memTail]
  | rip => simp [memTail]
  | reg base =>
    have := length_displacement_le base.num.val d
    simp only [memTail]
    split <;> simp only [List.length_cons] <;> omega

theorem length_regMem_le (o : Opcode) (r : Nat) (m : Mem) : (o.regMem r m).bytes.length ≤ 11 := by
  have h1 := length_bytes_le o r m.baseNum m.indexNum
  have h2 := length_memTail_le r m
  rw [bytes_regMem, List.length_append]
  omega

theorem length_regs_le (o : Opcode) (r rm : Nat) : (o.regs r rm).bytes.length ≤ 6 := by
  have := length_bytes_le o r rm 0
  simp only [regs, Encoding.plain, List.length_append, List.length_singleton]
  omega

theorem length_extReg_le (o : Opcode) (ext rm : Nat) : (o.extReg ext rm).bytes.length ≤ 6 := by
  have := length_bytes_le o ext rm 0
  simp only [extReg, Encoding.plain, List.length_append, List.length_singleton]
  omega

theorem length_bare_le (o : Opcode) (r rm : Nat) : (o.bare r rm).bytes.length ≤ 5 :=
  length_bytes_le o r rm 0

theorem length_regRm_le (o : Opcode) (r : Nat) (x : Rm) : (o.regRm r x).bytes.length ≤ 11 := by
  cases x with
  | reg x => exact Nat.le_trans (length_regs_le o r x.num.val) (by omega)
  | mem m => exact length_regMem_le o r m

theorem length_regXm_le (o : Opcode) (r : Nat) (x : Xm) : (o.regXm r x).bytes.length ≤ 11 := by
  cases x with
  | reg x => exact Nat.le_trans (length_regs_le o r x.num.val) (by omega)
  | mem m => exact length_regMem_le o r m

theorem length_extRm_le (o : Opcode) (ext : Nat) (x : Rm) : (o.extRm ext x).bytes.length ≤ 11 := by
  cases x with
  | reg x => exact Nat.le_trans (length_extReg_le o ext x.num.val) (by omega)
  | mem m => exact length_regMem_le o ext m

theorem length_withImmediate_le {e : Encoding} {imm : List UInt8} (he : e.bytes.length ≤ 11)
    (himm : imm.length ≤ 4) : (e.withImmediate imm).length ≤ 15 := by
  simp only [Encoding.length, Encoding.withImmediate, List.length_append]
  omega

theorem length_immForm_le (short long : UInt8) (wide : Bool) (imm : Int32) :
    (immForm short long wide imm).2.length ≤ 4 := by
  unfold immForm
  split <;> simp [imm8, imm32]

theorem length_encodeMovAbs_le (dst : Gpr) (value : UInt64) :
    (encodeMovAbs dst value).length ≤ 15 := by
  have := length_bare_le (((Opcode.one 0xB8).withWide true).plus dst.low3) 0 dst.num.val
  simp only [encodeMovAbs, Encoding.length, Encoding.withImmediate, List.length_append,
    length_leBytes]
  omega

theorem length_encodeMovImm_le (wide : Bool) (dst : Gpr) (value : UInt64) :
    (encodeMovImm wide dst value).length ≤ 15 := by
  unfold encodeMovImm
  split
  · exact length_withImmediate_le (Nat.le_trans (length_bare_le _ _ _) (by omega)) (by simp)
  · split
    · exact length_withImmediate_le (Nat.le_trans (length_extReg_le _ _ _) (by omega)) (by simp)
    · exact length_encodeMovAbs_le dst value

theorem length_encodeStoreImm_le (dst : Mem) (imm : Int32) (width : Width) :
    (encodeStoreImm dst imm width).length ≤ 15 := by
  cases width <;> exact length_withImmediate_le (length_regMem_le _ _ _) (by simp [imm8, imm32])

theorem length_encodeExtend_le (ext : Extension) (dst : Gpr) (src : Rm) :
    (encodeExtend ext dst src).length ≤ 11 := by
  cases src with
  | reg r => exact Nat.le_trans (length_regs_le _ _ _) (by omega)
  | mem m => exact length_regMem_le _ _ m

/-- No instruction is longer than the processor accepts. -/
theorem length_encode_le (i : Instr) : i.encode.length ≤ 15 := by
  -- One bound for each shape of operands, all of them far below the limit without an immediate.
  have hmem : ∀ o r m, (regMem o r m).length ≤ 15 := fun o r m =>
    Nat.le_trans (length_regMem_le o r m) (by omega)
  have hregs : ∀ o r rm, (regs o r rm).length ≤ 15 := fun o r rm =>
    Nat.le_trans (length_regs_le o r rm) (by omega)
  have hext : ∀ o ext rm, (extReg o ext rm).length ≤ 15 := fun o ext rm =>
    Nat.le_trans (length_extReg_le o ext rm) (by omega)
  have hrm : ∀ o r x, (Opcode.regRm o r x).length ≤ 15 := fun o r x =>
    Nat.le_trans (length_regRm_le o r x) (by omega)
  have hxm : ∀ o r x, (regXm o r x).length ≤ 15 := fun o r x =>
    Nat.le_trans (length_regXm_le o r x) (by omega)
  have hbare : ∀ o r rm, (bare o r rm).length ≤ 15 := fun o r rm =>
    Nat.le_trans (length_bare_le o r rm) (by omega)
  cases i with
  | alu | imul | cmov => exact hrm _ _ _
  | aluStore | load | store | storeByte | storeWord | lea | movsLoad | movsStore => exact hmem _ _ _
  | mov | bitScan | movap | cvtFromInt | cvtToInt | cvtFloat | movToXmm | movFromXmm =>
    exact hregs _ _ _
  | neg | not | div | idiv | jmpReg | callReg | setcc | shiftCl => exact hext _ _ _
  | sse | ucomis | packed => exact hxm _ _ _
  | push | pop => exact hbare _ _ _
  | cdq | cqo | call | ret | mfence | ud2 | int3 | pause => decide
  | movImm wide dst value => exact length_encodeMovImm_le wide dst value
  | movAbs dst value => exact length_encodeMovAbs_le dst value
  | extend ext dst src => exact Nat.le_trans (length_encodeExtend_le ext dst src) (by omega)
  | storeImm width dst imm => exact length_encodeStoreImm_le dst imm width
  | aluImm op wide dst imm =>
    exact length_withImmediate_le (length_extRm_le _ _ _) (length_immForm_le _ _ _ _)
  | imulImm wide dst src imm =>
    exact length_withImmediate_le (Nat.le_trans (length_regs_le _ _ _) (by omega))
      (length_immForm_le _ _ _ _)
  | shiftImm op wide r count =>
    simp only [encode]
    split
    · exact hext _ _ _
    · exact length_withImmediate_le (Nat.le_trans (length_extReg_le _ _ _) (by omega)) (by simp)
  | test wide a b =>
    cases a with
    | reg r => exact hregs _ _ _
    | mem m => exact hmem _ _ _
  | cmpxchg lock wide dst src =>
    have := length_regMem_le ((Opcode.two 0xB1).withWide wide) src.num.val dst
    cases lock
    · exact hmem _ _ _
    · simp only [encode, Encoding.length, Encoding.behind, if_true, List.length_cons]
      omega

/-- Every instruction whose memory operand has an encoding is decoded again, whatever bytes follow
it, and takes at most 15 bytes. -/
theorem decode_encode_append (i : Instr) (h : i.Encodable) (rest : List UInt8) :
    decode (i.encode.bytes ++ rest) = some (i.decoded, i.encode.length) ∧ i.encode.length ≤ 15 :=
  ⟨decodes_encode i h rest, length_encode_le i⟩

/-- An `add` to a cell with an index, a scale and a displacement, in front of a `ret`. -/
theorem decode_encode_append_indexed :
    let m := Mem.indexed .r13 .r12 3 (-8)
    (aluStore .add true m .r9).Encodable ∧
    decode ((aluStore .add true m .r9).encode.bytes ++ [0xC3]) =
      some (.alu .add .qword (.mem m) (.rm (.reg .r9)), 5) := by
  have h : (aluStore .add true (Mem.indexed .r13 .r12 3 (-8)) .r9).Encodable := by
    intro m hm
    cases hm
    exact ⟨by simp [Mem.indexed, Gpr.r12, Gpr.rsp], by simp [Mem.indexed]⟩
  exact ⟨h, (decode_encode_append _ h [0xC3]).1⟩

/-- A 32-bit immediate of a move into a register is not read as signed: it is found unsigned, as the
value that the whole register holds afterwards. -/
theorem decode_movImm_ne_signed :
    decode (movImm false .rax 0xFFFFFFFF).encode.bytes ≠
      some (.mov .dword (.reg .rax) (.imm (signedAt .dword 0xFFFFFFFF)), 5) := by
  decide

end Instr

end MachineCode.X64
