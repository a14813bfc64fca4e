import MachineCode.X64.InsnDecode
import MachineCode.Proofs.Decoding.Delimited
import Mathlib.Data.Nat.Bitwise
import Mathlib.Tactic.IntervalCases

/-! The two decoders read the same. What is read as an operation with its operands is what an
instruction with typed operands stands for, reader by reader. -/
namespace MachineCode.X64

/-! ### Numbers of registers -/

/-- The fourth bit of a register number. -/
def fourthBit (high : Bool) : UInt8 := if high then 8 else 0

/-- A mask with one bit leaves that bit or nothing. -/
theorem and_twoPow (b : UInt8) {k : Nat} (hk : k < 8) :
    b &&& UInt8.ofNat (2 ^ k) = 0 ∨ b &&& UInt8.ofNat (2 ^ k) = UInt8.ofNat (2 ^ k) := by
  have hmask : (UInt8.ofNat (2 ^ k)).toNat = 2 ^ k :=
    UInt8.toNat_ofNat_of_lt' (Nat.pow_lt_pow_right (by decide) hk)
  rw [← UInt8.toNat_inj, ← UInt8.toNat_inj, UInt8.toNat_and, hmask, Nat.and_two_pow]
  cases b.toNat.testBit k <;> simp

theorem rexBits_eq (rex : UInt8) :
    (rex &&& 4) <<< 1 = fourthBit (rex &&& 4 != 0) ∧
    (rex &&& 2) <<< 2 = fourthBit (rex &&& 2 != 0) ∧
      (rex &&& 1) <<< 3 = fourthBit (rex &&& 1 != 0) := by
  refine ⟨?_, ?_, ?_⟩
  · obtain h | h : rex &&& 4 = 0 ∨ rex &&& 4 = 4 :=
      and_twoPow rex (k := 2) (by decide) <;> rw [h] <;> rfl
  · obtain h | h : rex &&& 2 = 0 ∨ rex &&& 2 = 2 :=
      and_twoPow rex (k := 1) (by decide) <;> rw [h] <;> rfl
  · obtain h | h : rex &&& 1 = 0 ∨ rex &&& 1 = 1 :=
      and_twoPow rex (k := 0) (by decide) <;> rw [h] <;> rfl

theorem fields_toNat (b : UInt8) :
    (b &&& 7).toNat = b.toNat % 8 ∧ ((b >>> 3) &&& 7).toNat = b.toNat / 8 % 8 ∧
      (b >>> 6).toNat = b.toNat / 64 := by
  have hlow : ∀ b : UInt8, (b &&& 7).toNat = b.toNat % 8 := fun b =>
    Nat.and_two_pow_sub_one_eq_mod b.toNat 3
  have hshift : ∀ k : Nat, k < 8 → (b >>> UInt8.ofNat k).toNat = b.toNat / 2 ^ k := by
    intro k hk
    have hsize : (UInt8.ofNat k).toNat = k := UInt8.toNat_ofNat_of_lt' (Nat.lt_trans hk (by decide))
    rw [UInt8.toNat_shiftRight, hsize, Nat.mod_eq_of_lt hk, Nat.shiftRight_eq_div_pow]
  refine ⟨hlow b, ?_, hshift 6 (by decide)⟩
  rw [hlow]
  exact congrArg (· % 8) (hshift 3 (by decide))

theorem scale_eq (sib : UInt8) :
    (1 : UInt8) <<< (sib >>> 6) = UInt8.ofNat (pow2 (Reader.sibShift sib.toNat).val) := by
  have hhigh : sib >>> 6 = UInt8.ofNat (sib.toNat / 64) := by
    rw [← UInt8.toNat_inj, (fields_toNat sib).2.2]
    exact (UInt8.toNat_ofNat_of_lt' (Nat.lt_of_le_of_lt (Nat.div_le_self ..) sib.toNat_lt)).symm
  have hall : ∀ k < 4, (1 : UInt8) <<< UInt8.ofNat k = UInt8.ofNat (pow2 (k % 4)) := by decide
  rw [hhigh]
  exact hall _ (by have := sib.toNat_lt; omega)

namespace Reader

theorem extended_mod (high : Bool) (n : Nat) : extended high (n % 8) = extended high n :=
  Fin.ext (congrArg (· + _) (Nat.mod_mod n 8))

/-- Three bits and the fourth one make up the number of a register. -/
theorem or_fourthBit (high : Bool) {low : UInt8} {n : Nat} (h : low.toNat = n % 8) :
    low ||| fourthBit high = UInt8.ofNat (extended high n).val := by
  have hall : ∀ high : Bool, ∀ k < 8,
      UInt8.ofNat k ||| fourthBit high = UInt8.ofNat (extended high k).val := by decide
  rw [← UInt8.ofNat_toNat (x := low), h, hall high _ (Nat.mod_lt n (by decide)), extended_mod]

/-! ### Addresses -/

/-- The operand as the other decoder reads it. -/
def Operand.raw : Operand → RawRm
  | .reg num => .reg (UInt8.ofNat num.val)
  | .mem m => .mem (m.raw 0)

def ModRm.raw (m : ModRm) : RawModRm := ⟨UInt8.ofNat m.reg.val, UInt8.ofNat m.ext, m.rm.raw⟩

theorem displacement_of_ne {n : Nat} (h1 : n ≠ 1) (h2 : n ≠ 2) : displacement n = pure 0 := by
  unfold displacement
  split
  · exact absurd rfl h1
  · exact absurd rfl h2
  · rfl

theorem displaced_eq (mode : UInt8) {m : Mem} (h : m.disp = 0) :
    RawReader.displaced mode (m.raw 0) =
      (fun d => Mem.raw { m with disp := d } 0) <$> displacement mode.toNat := by
  unfold RawReader.displaced
  split_ifs with h1 h2
  · subst h1
    change _ = _ <$> (do return Int32.ofInt (← int8))
    rw [map_bind]
    rfl
  · subst h2
    change _ = _ <$> int32
    rw [map_eq_pure_bind]
    rfl
  · have hne : ∀ k : UInt8, mode ≠ k → mode.toNat ≠ k.toNat := fun k => UInt8.toNat_inj.not.mpr
    rw [displacement_of_ne (hne 1 h1) (hne 2 h2), map_pure, ← h]

/-- The index of an SIB byte; the number 4 stands for none. -/
def sibIndex (high : Bool) (sib : UInt8) : Option MemIndex :=
  if (extended high (sib.toNat / 8)).val = 4 then none
  else some ⟨⟨extended high (sib.toNat / 8)⟩, sibShift sib.toNat⟩

theorem ofNat_eq_four (n : Fin 16) : UInt8.ofNat n.val = 4 ↔ n.val = 4 := by
  revert n
  decide

theorem index_eq (p : Prefixes) (sib : UInt8) :
    let index := (sib >>> 3) &&& 7 ||| p.indexBit
    let m : RawMem := ⟨none, none, 1, 0, false, 0⟩
    (if index ≠ 4 then
      { m with index := some index, scale := (1 : UInt8) <<< (sib >>> 6) } else m) =
      Mem.raw ⟨.none, sibIndex p.highIndex sib, 0⟩ 0 := by
  have hindex : (sib >>> 3) &&& 7 ||| p.indexBit =
      UInt8.ofNat (extended p.highIndex (sib.toNat / 8)).val := by
    rw [Prefixes.indexBit, (rexBits_eq p.rex).2.1]
    exact or_fourthBit _ (fields_toNat sib).2.1
  simp only [hindex, ne_eq, ofNat_eq_four, scale_eq, sibIndex, ite_not]
  split <;> rfl

theorem rmBit_eq (p : Prefixes) {low : UInt8} {n : Nat} (h : low.toNat = n % 8) :
    low ||| p.rmBit = Gpr.byte ⟨extended p.highRm n⟩ := by
  rw [Prefixes.rmBit, (rexBits_eq p.rex).2.2]
  exact or_fourthBit _ h

theorem eq_iff_toNat {b c : UInt8} {n : Nat} (h : b.toNat = n) : b = c ↔ n = c.toNat := by
  rw [← h, UInt8.toNat_inj]

theorem sibMem_eq (p : Prefixes) (mode : UInt8) :
    RawReader.mem p mode 4 = (Mem.raw · 0) <$> sibMem p mode.toNat := by
  have hzero : mode = 0 ↔ mode.toNat = 0 := eq_iff_toNat rfl
  unfold RawReader.mem RawReader.base sibMem
  rw [if_pos rfl, map_bind, bind_assoc]
  refine bind_congr fun sib => ?_
  have hindex := index_eq p sib
  have hfive : sib &&& 7 = 5 ↔ sib.toNat % 8 = 5 := eq_iff_toNat (fields_toNat sib).1
  simp only at hindex ⊢
  rw [hindex]
  by_cases hnone : sib.toNat % 8 = 5 ∧ mode.toNat = 0
  · rw [if_pos hnone, if_pos ⟨hfive.mpr hnone.1, hzero.mpr hnone.2⟩, hzero.mpr hnone.2, map_bind,
      bind_assoc]
    rfl
  · rw [if_neg hnone, if_neg (by rwa [hfive, hzero]), map_bind, pure_bind,
      rmBit_eq p (fields_toNat sib).1]
    have hm : Mem.disp ⟨.reg ⟨extended p.highRm sib.toNat⟩, sibIndex p.highIndex sib, 0⟩ = 0 := rfl
    exact (displaced_eq mode hm).trans (map_eq_pure_bind _ _)

theorem mem_eq (p : Prefixes) (mode : UInt8) {rm : UInt8} {n : Nat} (h : rm.toNat = n % 8) :
    RawReader.mem p mode rm = (Mem.raw · 0) <$> mem p mode.toNat (n % 8) := by
  have hzero : mode = 0 ↔ mode.toNat = 0 := eq_iff_toNat rfl
  have hfour : rm = 4 ↔ n % 8 = 4 := eq_iff_toNat h
  have hfive : rm = 5 ↔ n % 8 = 5 := eq_iff_toNat h
  unfold mem
  by_cases h4 : n % 8 = 4
  · rw [if_pos h4, hfour.mpr h4]
    exact sibMem_eq p mode
  unfold RawReader.mem RawReader.base
  rw [if_neg h4, if_neg (hfour.not.mpr h4)]
  by_cases hrip : n % 8 = 5 ∧ mode.toNat = 0
  · rw [if_pos hrip, if_pos ⟨hfive.mpr hrip.1, hzero.mpr hrip.2⟩, hzero.mpr hrip.2, map_bind,
      bind_assoc]
    rfl
  · rw [if_neg hrip, if_neg (by rwa [hfive, hzero]), map_bind, pure_bind, rmBit_eq p h]
    refine (displaced_eq (m := .based ⟨extended p.highRm n⟩ 0) mode rfl).trans ?_
    rw [map_eq_pure_bind, extended_mod]
    rfl

theorem modRm_eq (p : Prefixes) : RawReader.modRm p = ModRm.raw <$> modRm p := by
  unfold RawReader.modRm modRm
  rw [map_bind]
  refine bind_congr fun b => ?_
  obtain ⟨hlow, hmid, hhigh⟩ := fields_toNat b
  have hthree : b >>> 6 = 3 ↔ b.toNat / 64 = 3 := eq_iff_toNat hhigh
  have hreg : (b >>> 3) &&& 7 ||| p.regBit =
      UInt8.ofNat (extended p.highReg (b.toNat / 8 % 8)).val := by
    rw [Prefixes.regBit, (rexBits_eq p.rex).1, extended_mod]
    exact or_fourthBit _ hmid
  have hext : (b >>> 3) &&& 7 = UInt8.ofNat (b.toNat / 8 % 8) := by
    rw [← hmid, UInt8.ofNat_toNat]
  simp only [hthree, hreg]
  simp only [hext]
  split
  · rw [pure_bind, pure_bind, map_pure, rmBit_eq p hlow]
    rfl
  · rw [mem_eq p (b >>> 6) hlow, hhigh]
    simp only [map_eq_pure_bind, bind_assoc, pure_bind]
    rfl

/-! ### Operands -/

theorem four_le_ofNat (num : Fin 16) : 4 ≤ UInt8.ofNat num.val ↔ 4 ≤ num.val := by
  revert num
  decide

theorem ofNat_lt_eight (num : Fin 16) : UInt8.ofNat num.val < 8 ↔ num.val < 8 := by
  revert num
  decide

theorem ofNat_bytes_eq_one (w : Width) : UInt8.ofNat w.bytes = 1 ↔ w = .byte := by
  cases w <;> decide

theorem gpr_eq (p : Prefixes) (w : Width) (num : Fin 16) :
    RawReader.gpr p (UInt8.ofNat w.bytes) (UInt8.ofNat num.val) =
      (fun r => (Arg.gpr r w).operand) <$> gpr p w num := by
  unfold RawReader.gpr gpr
  simp only [ofNat_bytes_eq_one, four_le_ofNat, ofNat_lt_eight]
  split <;> rfl

theorem rm_eq (p : Prefixes) (w : Width) (x : Operand) :
    RawReader.rm p (UInt8.ofNat w.bytes) x.raw =
      (fun y => (Arg.ofRm y w).operand) <$> Reader.rm p w x := by
  cases x with
  | reg num =>
    refine (gpr_eq p w num).trans ?_
    rw [Reader.rm, ← comp_map]
    rfl
  | mem m => rfl

theorem xm_eq (x : Operand) (size : Nat) :
    RawReader.xm (UInt8.ofNat size) x.raw = (Arg.ofXm (xm x) size).operand := by
  cases x <;> rfl

theorem rmReg_eq (p : Prefixes) (w : Width) :
    RawReader.rmReg p (UInt8.ofNat w.bytes) =
      (fun x => [(Arg.ofRm x.1 w).operand, (Arg.gpr x.2 w).operand]) <$> rmReg p w := by
  simp only [RawReader.rmReg, rmReg, modRm_eq, ModRm.raw, rm_eq, gpr_eq, bind_map_left, map_bind,
    map_pure]

theorem regRm_eq (p : Prefixes) (w v : Width) :
    RawReader.regRm p (UInt8.ofNat w.bytes) (UInt8.ofNat v.bytes) =
      (fun x => [(Arg.gpr x.1 w).operand, (Arg.ofRm x.2 v).operand]) <$> regRm p w v := by
  simp only [RawReader.regRm, regRm, modRm_eq, ModRm.raw, rm_eq, gpr_eq, bind_map_left, map_bind,
    map_pure]

theorem xmmXm_eq (p : Prefixes) (size : Nat) :
    RawReader.xmmXm p (UInt8.ofNat size) =
      (fun x => [(Arg.xmm x.1).operand, (Arg.ofXm x.2 size).operand]) <$> xmmXm p := by
  simp only [RawReader.xmmXm, xmmXm, modRm_eq, ModRm.raw, xm_eq, bind_map_left, map_bind, map_pure]
  rfl

/-! ### Constants -/

theorem immediate_eq (w : Width) :
    RawReader.immediate (UInt8.ofNat w.bytes) = (fun v => (Arg.imm v).operand) <$> immediate w := by
  cases w <;> simp [RawReader.immediate, immediate, Width.bytes, Arg.operand]

theorem shortImmediate_eq (byte : Bool) (w : Width) :
    RawReader.shortImmediate byte (UInt8.ofNat w.bytes) =
      (fun v => (Arg.imm v).operand) <$> shortImmediate byte w := by
  cases byte with
  | false => exact immediate_eq w
  | true => exact (map_eq_pure_bind _ _).symm

theorem moveImmediate_eq {w : Width} (hw : w ≠ .byte) :
    RawReader.moveImmediate (UInt8.ofNat w.bytes) =
      (fun v => (Arg.imm v).operand) <$> moveImmediate w := by
  have hnat : ∀ n : Nat, Int64.ofInt (n : Int) = Int64.ofNat n := fun _ => rfl
  cases w with
  | byte => exact absurd rfl hw
  | word | dword => simp [RawReader.moveImmediate, moveImmediate, Width.bytes, Arg.operand, hnat]
  | qword =>
    simp only [moveImmediate, Arg.operand, map_bind, map_pure, Int64.ofInt_toInt]
    rfl

/-- The opcode extension has three bits. -/
theorem modRm_bind_congr {α : Type} (p : Prefixes) {f g : ModRm → Reader α}
    (h : ∀ m, m.ext < 8 → f m = g m) : modRm p >>= f = modRm p >>= g := by
  unfold modRm
  rw [bind_assoc, bind_assoc]
  refine bind_congr fun b => ?_
  have hext : ∀ reg rm, f ⟨reg, b.toNat / 8 % 8, rm⟩ = g ⟨reg, b.toNat / 8 % 8, rm⟩ :=
    fun _ _ => h _ (Nat.mod_lt (b.toNat / 8) (by decide : 0 < 8))
  dsimp only
  split <;> simp only [bind_assoc, pure_bind, hext]

end Reader

namespace Prefixes

variable (p : Prefixes)

theorem size_eq : p.size = UInt8.ofNat p.width.bytes := by
  unfold size width
  split_ifs <;> rfl

theorem intSize_eq : p.intSize = UInt8.ofNat p.intWidth.bytes := by
  unfold intSize intWidth Width.ofWide
  split_ifs <;> rfl

theorem formSize_eq (byte : Bool) : p.formSize byte = UInt8.ofNat (p.formWidth byte).bytes := by
  cases byte with
  | false => exact p.size_eq
  | true => rfl

theorem scalarSize_eq : p.scalarSize = UInt8.ofNat (Decoded.scalarSize p.repne) := by
  unfold scalarSize Decoded.scalarSize
  split_ifs <;> rfl

end Prefixes

/-! ### Instructions -/

open Reader

theorem ext_toNat {m : ModRm} (h : m.ext < 8) : m.raw.ext.toNat = m.ext :=
  UInt8.toNat_ofNat_of_lt' (Nat.lt_trans h (by decide))

theorem shift_eq (p : Prefixes) {count : Reader RawOperand} {count' : Reader ShiftCount}
    (h : count = (fun n => (Arg.ofCount n).operand) <$> count') :
    RawReader.shift p count = Decoded.insn <$> shift p count' := by
  subst h
  simp only [RawReader.shift, shift, modRm_eq, bind_map_left, map_bind]
  refine modRm_bind_congr p fun m hm => ?_
  rw [ext_toNat hm]
  cases Shift.ofCode? m.ext with
  | none => rfl
  | some op =>
    simp only [ModRm.raw, p.size_eq, rm_eq, bind_map_left, map_bind, map_pure]
    rfl

theorem group3_eq (p : Prefixes) : RawReader.group3 p = Decoded.insn <$> Reader.group3 p := by
  simp only [RawReader.group3, Reader.group3, modRm_eq, bind_map_left, map_bind]
  refine modRm_bind_congr p fun m hm => ?_
  rw [ext_toNat hm]
  simp only [ModRm.raw, p.size_eq, rm_eq, immediate_eq, bind_map_left]
  refine bind_congr fun x => ?_
  -- one case for each extension
  generalize m.ext = ext at hm
  interval_cases ext
  · change _ = Decoded.insn <$> do return .test p.width x (.imm (← immediate p.width))
    rw [map_bind]
    rfl
  all_goals rfl

theorem group5_eq (p : Prefixes) : RawReader.group5 p = Decoded.insn <$> Reader.group5 p := by
  simp only [RawReader.group5, Reader.group5, modRm_eq, bind_map_left, map_bind]
  refine modRm_bind_congr p fun m hm => ?_
  have hrm : RawReader.rm p 8 m.raw.rm = _ := rm_eq p .qword m.rm
  rw [ext_toNat hm, hrm, bind_map_left]
  refine bind_congr fun x => ?_
  generalize m.ext = ext at hm
  interval_cases ext <;> rfl

/-- The register in an opcode has three bits. -/
def OpcodeForm.isShort : OpcodeForm → Bool
  | push low | pop low | movImm low => low < 8
  | _ => true

theorem OpcodeForm.isShort_of_ofByte? {b : UInt8} {form : OpcodeForm} (h : ofByte? b = some form) :
    form.isShort = true := by
  have hall : ∀ n < 256, (ofByte? (UInt8.ofNat n)).all isShort = true := by decide +kernel
  have hb := hall b.toNat b.toNat_lt
  rwa [UInt8.ofNat_toNat, h] at hb

/-- The register in an opcode is not a byte register. -/
theorem opcodeGpr_eq (p : Prefixes) {low : Nat} (h : low < 8) {w : Width} (hw : w ≠ .byte) :
    RawReader.gpr p (UInt8.ofNat w.bytes) (UInt8.ofNat low ||| p.rmBit) =
      pure (Arg.operand (.gpr ⟨extended p.highRm low⟩ w)) := by
  have hlow : (UInt8.ofNat low).toNat = low % 8 := by
    rw [UInt8.toNat_ofNat_of_lt' (Nat.lt_trans h (by decide)), Nat.mod_eq_of_lt h]
  rw [rmBit_eq p hlow]
  refine (gpr_eq p w _).trans ?_
  rw [gpr, if_neg fun hbyte => hw hbyte.1, map_pure]

theorem OpcodeForm.readInsn_eq (p : Prefixes) {form : OpcodeForm} (hshort : form.isShort = true) :
    form.readInsn p = Decoded.insn <$> form.read p := by
  cases form with
  | aluStore op =>
    simp only [readInsn, read, p.size_eq, rmReg_eq, bind_map_left, map_bind, map_pure]
    rfl
  | aluLoad op =>
    simp only [readInsn, read, p.size_eq, regRm_eq, bind_map_left, map_bind, map_pure]
    rfl
  | push low | pop low =>
    have hgpr := opcodeGpr_eq p (of_decide_eq_true hshort) (w := .qword) (by decide)
    change RawReader.gpr p 8 _ = _ at hgpr
    rw [readInsn, hgpr, pure_bind]
    rfl
  | movsxd =>
    have hreg : RawReader.regRm p (UInt8.ofNat p.width.bytes) 4 = _ := regRm_eq p p.width .dword
    simp only [readInsn, read, p.size_eq, hreg, bind_map_left, map_bind, map_pure]
    rfl
  | imulImm byte =>
    simp only [readInsn, read, p.size_eq, regRm_eq, shortImmediate_eq,
      bind_map_left, map_bind, map_pure]
    rfl
  | jccShort cond =>
    simp only [readInsn, read, map_bind, map_pure]
    rfl
  | aluImm byte =>
    simp only [readInsn, read, p.size_eq, modRm_eq, bind_map_left, map_bind, map_pure]
    refine modRm_bind_congr p fun m hm => ?_
    rw [ext_toNat hm]
    simp only [ModRm.raw, rm_eq, shortImmediate_eq, bind_map_left]
    rfl
  | test byte =>
    simp only [readInsn, read, p.formSize_eq, rmReg_eq, bind_map_left, map_bind, map_pure]
    rfl
  | movStore byte =>
    simp only [readInsn, read, p.formSize_eq, rmReg_eq, bind_map_left, map_bind, map_pure]
    rfl
  | movLoad byte =>
    simp only [readInsn, read, p.formSize_eq, regRm_eq, bind_map_left, map_bind, map_pure]
    rfl
  | lea =>
    simp only [readInsn, read, p.size_eq, modRm_eq, bind_map_left, map_bind]
    refine bind_congr fun m => ?_
    obtain ⟨reg, ext, x⟩ := m
    cases x with
    | reg num => rfl
    | mem mem =>
      simp only [ModRm.raw, Operand.raw, gpr_eq, bind_map_left, map_bind, map_pure]
      rfl
  | nop =>
    simp only [readInsn, read, map_pure]
    cases p.rep <;> rfl
  | cdq =>
    simp only [readInsn, read, map_pure]
    cases p.wide <;> rfl
  | movImm low =>
    simp only [readInsn, read, p.size_eq, opcodeGpr_eq p (of_decide_eq_true hshort) p.width_ne_byte,
      moveImmediate_eq p.width_ne_byte, pure_bind, bind_map_left, map_bind, map_pure]
    rfl
  | shiftImm =>
    refine shift_eq p ?_
    rw [← comp_map, map_eq_pure_bind]
    rfl
  | shiftOne => exact shift_eq p (map_pure _ _).symm
  | shiftCl => exact shift_eq p (map_pure _ _).symm
  | ret => rfl
  | movImmRm byte =>
    simp only [readInsn, read, p.formSize_eq, modRm_eq, bind_map_left, map_bind, map_pure]
    refine modRm_bind_congr p fun m hm => ?_
    have hzero : (m.raw.ext == 0) = (m.ext == 0) := by
      rw [Bool.eq_iff_iff, beq_iff_eq, beq_iff_eq]
      exact eq_iff_toNat (ext_toNat hm)
    rw [hzero]
    refine bind_congr fun _ => ?_
    simp only [ModRm.raw, rm_eq, shortImmediate_eq, bind_map_left]
    rfl
  | int3 => rfl
  | call | jmp | jmpShort =>
    simp only [readInsn, read, map_bind, map_pure]
    rfl
  | group3 => exact group3_eq p
  | group5 => exact group5_eq p

theorem EscapedForm.readInsn_eq (p : Prefixes) (form : EscapedForm) :
    form.readInsn p = Decoded.insn <$> form.read p := by
  cases form with
  | ud2 => rfl
  | movsLoad | sse op =>
    simp only [readInsn, read, p.scalarSize_eq, xmmXm_eq, bind_map_left, map_bind, map_pure]
    rfl
  | movsStore =>
    simp only [readInsn, read, p.scalarSize_eq, xmmXm_eq, bind_map_left, map_bind, map_pure]
    rfl
  | nop =>
    simp only [readInsn, read, modRm_eq, bind_map_left, map_bind, map_pure]
    rfl
  | movap | packed op =>
    have hxmm : RawReader.xmmXm p 16 = _ := xmmXm_eq p 16
    simp only [readInsn, read, hxmm, bind_map_left, map_bind, map_pure]
    rfl
  | cvtFromInt =>
    simp only [readInsn, read, p.intSize_eq, modRm_eq, ModRm.raw, rm_eq,
      bind_map_left, map_bind, map_pure]
    rfl
  | cvtToInt =>
    simp only [readInsn, read, p.intSize_eq, p.scalarSize_eq, modRm_eq, ModRm.raw, gpr_eq, xm_eq,
      bind_map_left, map_bind, map_pure]
    rfl
  | ucomis =>
    have hsize :
        (if p.data16 then 8 else 4 : UInt8) = UInt8.ofNat (Decoded.scalarSize p.data16) := by
      cases p.data16 <;> rfl
    simp only [readInsn, read, hsize, xmmXm_eq, bind_map_left, map_bind, map_pure]
    rfl
  | cmov cond | imul | bitScan reverse =>
    simp only [readInsn, read, p.size_eq, regRm_eq, bind_map_left, map_bind, map_pure]
    rfl
  | cvtFloat =>
    have hsize : (if p.rep then 4 else 8 : UInt8) = UInt8.ofNat (Decoded.scalarSize !p.rep) := by
      cases p.rep <;> rfl
    simp only [readInsn, read, hsize, xmmXm_eq, bind_map_left, map_bind, map_pure]
    rfl
  | movToXmm | movFromXmm =>
    simp only [readInsn, read, p.intSize_eq, modRm_eq, ModRm.raw, rm_eq,
      bind_map_left, map_bind, map_pure]
    rfl
  | jcc cond =>
    simp only [readInsn, read, map_bind, map_pure]
    rfl
  | setcc cond =>
    have hrm : ∀ x : Reader.Operand, RawReader.rm p 1 x.raw = _ := rm_eq p .byte
    simp only [readInsn, read, modRm_eq, ModRm.raw, hrm, bind_map_left, map_bind, map_pure]
    rfl
  | fence =>
    simp only [readInsn, read, map_bind, map_pure]
    rfl
  | cmpxchg =>
    simp only [readInsn, read, p.size_eq, rmReg_eq, bind_map_left, map_bind, map_pure]
    rfl
  | movx sign word =>
    have hsize : (if word then 2 else 1 : UInt8) =
        UInt8.ofNat (if word then Width.word else .byte).bytes := by
      cases word <;> rfl
    simp only [readInsn, read, p.size_eq, hsize, regRm_eq, bind_map_left, map_bind, map_pure]
    cases sign <;> rfl

theorem Insn.read_eq (p : Prefixes) : Insn.read p = Decoded.insn <$> Decoded.read p := by
  unfold Insn.read Decoded.read
  rw [map_bind]
  refine bind_congr fun b => ?_
  split
  · rw [map_bind]
    refine bind_congr fun b' => ?_
    cases EscapedForm.ofByte? b' with
    | some form => exact form.readInsn_eq p
    | none => rfl
  · cases hform : OpcodeForm.ofByte? b with
    | some form => exact form.readInsn_eq p (OpcodeForm.isShort_of_ofByte? hform)
    | none => rfl

theorem Reader.map_apply {α β : Type} (f : α → β) (x : Reader α) (c : Cursor) :
    (f <$> x) c = (x c).map fun r => (f r.1, r.2) := by
  change (x c).bind (fun r => some (f r.1, r.2)) = _
  rw [Option.map_eq_bind]
  rfl

/-- Both decoders take the same bytes, and they read the same instruction. -/
theorem Insn.decode_eq (bytes : List UInt8) :
    Insn.decode bytes = (X64.decode bytes).map fun i => (i.1.insn, i.2) := by
  simp only [Insn.decode, X64.decode, Insn.read_eq, Reader.map_apply, Option.map_map]
  rfl

end MachineCode.X64
