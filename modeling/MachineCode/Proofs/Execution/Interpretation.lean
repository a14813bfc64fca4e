import MachineCode.Proofs.Numbers
import MachineCode.Machine.Run
import MachineCode.Proofs.Steps

/-! An operation with the operands of an instruction does what the instruction does: every lookup
finds its operand, and what is found is read and written as the instruction reads and writes it. -/
namespace MachineCode

open X64

theorem Memory.readWord_lt (m : Memory) (a : Word) (n : Nat) : m.readWord a n < 256 ^ n := by
  have := ofLeBytes_lt (m.read a n)
  rwa [length_read] at this

namespace Machine

variable {next : Word}

/-! ### Lookups -/

theorem toNat_byte (r : Gpr) : r.byte.toNat = r.num.val :=
  UInt8.toNat_ofNat_of_lt' (Nat.lt_trans r.num.isLt (by decide))

theorem toNat_xmmByte (x : Xmm) : x.byte.toNat = x.num.val :=
  UInt8.toNat_ofNat_of_lt' (Nat.lt_trans x.num.isLt (by decide))

@[simp] theorem gprAt_byte (r : Gpr) : gprAt r.byte = pure r := by
  have hlt : r.byte.toNat < 16 := toNat_byte r ▸ r.num.isLt
  rw [gprAt, dif_pos hlt]
  congr
  exact toNat_byte r

@[simp] theorem xmmAt_byte (x : Xmm) : xmmAt x.byte = pure x := by
  have hlt : x.byte.toNat < 16 := toNat_xmmByte x ▸ x.num.isLt
  rw [xmmAt, dif_pos hlt]
  congr
  exact toNat_xmmByte x

@[simp] theorem raw_width (m : Mem) (size : Nat) : (m.raw size).width = UInt8.ofNat size := rfl

@[simp] theorem operandAt_zero (x : RawOperand) (xs : List RawOperand) :
    operandAt (x :: xs) 0 = pure x := rfl

@[simp] theorem operandAt_one (x y : RawOperand) (xs : List RawOperand) :
    operandAt (x :: y :: xs) 1 = pure y := rfl

@[simp] theorem operandAt_two (x y z : RawOperand) (xs : List RawOperand) :
    operandAt (x :: y :: z :: xs) 2 = pure z := rfl

@[simp] theorem widthOf_bytes (w : Width) : widthOf (UInt8.ofNat w.bytes) = pure w := by
  cases w <;> rfl

/-! ### Operands -/

@[simp] theorem and_mask (v : Word) (w : Width) : v &&& mask (UInt8.ofNat w.bytes) = low v w := by
  have hmask : (mask (UInt8.ofNat w.bytes)).toNat = 2 ^ w.bits - 1 := by
    cases w <;> rfl
  apply BitVec.eq_of_toNat_eq
  rw [BitVec.toNat_and, hmask, Nat.and_two_pow_sub_one_eq_mod, low,
    BitVec.toNat_setWidth_of_le w.bits_le, BitVec.toNat_setWidth]

theorem bytes_le (w : Width) : UInt8.ofNat w.bytes ≤ 8 := by
  cases w <;> decide

theorem toNat_bytes (w : Width) : (UInt8.ofNat w.bytes).toNat = w.bytes := by
  cases w <;> rfl

@[simp] theorem loadScalar_bytes (a : Word) (w : Width) :
    loadScalar a (UInt8.ofNat w.bytes) = loadBytes a w.bytes := by
  rw [loadScalar, if_pos (bytes_le w), toNat_bytes]

@[simp] theorem storeScalar_bytes (a : Word) (w : Width) (v : Word) :
    storeScalar a (UInt8.ofNat w.bytes) v = storeBytes a w.bytes v := by
  rw [storeScalar, if_pos (bytes_le w), toNat_bytes]

@[simp] theorem registerAt_none : registerAt none = pure 0 := rfl

@[simp] theorem registerAt_byte (r : Gpr) :
    registerAt (some r.byte) = do return (← get).reg r := by
  rw [registerAt, gprAt_byte, pure_bind]

theorem mul_scale (v : Word) (i : Fin 4) :
    v * BitVec.ofNat 64 (pow2 i.val % 256) = v <<< i.val := by
  have hscale : BitVec.ofNat 64 (pow2 i.val % 256) = BitVec.twoPow 64 i.val := by
    revert i
    decide
  rw [hscale, BitVec.shiftLeft_eq_mul_twoPow]

@[simp] theorem rawAddress_raw (m : Mem) (size : Nat) :
    rawAddress (m.raw size) next = address m next := by
  obtain ⟨base, index, disp⟩ := m
  funext s
  obtain _ | r | _ := base <;> obtain _ | i := index
  all_goals simp only [rawAddress, Mem.raw, Option.map_none, Option.map_some,
    registerAt_byte, registerAt_none, pure_bind, bind_assoc, address, Mem.isRip]
  all_goals
    change EStateM.Result.ok _ s = EStateM.Result.ok _ s
    simp [effectiveAddress, Mem.scale, mul_scale, -pow2_eq]

theorem operand_mem (m : Mem) (size : Nat) : (Arg.mem m size).operand = .mem (m.raw size) := rfl

@[simp] theorem readOperand_ofRm (x : Rm) (w : Width) :
    readOperand (Arg.ofRm x w).operand next = readRm x w next := by
  cases x with
  | reg r =>
    simp only [Arg.ofRm, Arg.operand, readOperand, readRm, readReg, gprAt_byte, pure_bind, and_mask]
  | mem m =>
    simp only [Arg.ofRm, Arg.operand, readOperand, readRm, rawAddress_raw, raw_width,
      loadScalar_bytes]

@[simp] theorem readOperand_ofSource (x : Source) (w : Width) :
    readOperand (Arg.ofSource x w).operand next = readSource x w next := by
  cases x with
  | rm x => exact readOperand_ofRm x w
  | imm v =>
    have hv : (Int64.ofInt v).toBitVec = BitVec.ofInt 64 v := rfl
    rw [Arg.ofSource, Arg.operand, readOperand, hv]
    rfl

@[simp] theorem readOperand_ofDestination (x : Destination) :
    readOperand (Arg.ofDestination x).operand next = destination x next := by
  cases x with
  | rel d => rfl
  | rm x => exact readOperand_ofRm x .qword

theorem merge_eq (old v : Word) (w : Width) :
    (if UInt8.ofNat w.bytes = 8 then v else if UInt8.ofNat w.bytes = 4 then low v .dword
      else (old &&& ~~~mask (UInt8.ofNat w.bytes)) ||| low v w) = merge old v w := by
  have hmask : mask (UInt8.ofNat w.bytes) = low (-1) w := by
    rw [← and_mask]
    exact (BitVec.allOnes_and ..).symm
  rw [hmask]
  cases w <;> rfl

@[simp] theorem writeOperand_gpr (r : Gpr) (w : Width) (v : Word) :
    writeOperand (Arg.gpr r w).operand v next = writeReg r w v := by
  simp only [Arg.operand, writeOperand, gprAt_byte, pure_bind, and_mask, merge_eq]
  rfl

@[simp] theorem writeOperand_ofRm (x : Rm) (w : Width) (v : Word) :
    writeOperand (Arg.ofRm x w).operand v next = writeRm x w v next := by
  cases x with
  | reg r => exact writeOperand_gpr r w v
  | mem m =>
    simp only [Arg.ofRm, Arg.operand, writeOperand, writeRm, rawAddress_raw, raw_width,
      storeScalar_bytes]

@[simp] theorem readScalar_ofXm (x : Xm) (double : Bool) (size : Nat) :
    readScalar (Arg.ofXm x size).operand double next = readLane x double next := by
  cases x with
  | reg x =>
    simp only [Arg.ofXm, Arg.operand, readScalar, readLane, xmmAt_byte, pure_bind]
  | mem m => simp only [Arg.ofXm, Arg.operand, readScalar, readLane, rawAddress_raw]

@[simp] theorem readWide_ofXm (x : Xm) (size : Nat) :
    readWide (Arg.ofXm x size).operand next = read128 x next := by
  cases x with
  | reg x => simp only [Arg.ofXm, Arg.operand, readWide, read128, xmmAt_byte, pure_bind]
  | mem m => simp only [Arg.ofXm, Arg.operand, readWide, read128, rawAddress_raw]

@[simp] theorem xmmIndex_xmm (x : Xmm) : xmmIndex (Arg.xmm x).operand = x.byte := rfl

@[simp] theorem writeScalar_xmm (x : Xmm) (double : Bool) (v : Word) :
    writeScalar (Arg.xmm x).operand double v = writeLane x double v := by
  simp only [Arg.operand, writeScalar, xmmIndex, xmmAt_byte, pure_bind]

@[simp] theorem readOperand_gpr (r : Gpr) (w : Width) :
    readOperand (Arg.gpr r w).operand next = readReg r w := readOperand_ofRm (.reg r) w

@[simp] theorem readOperand_imm (v : Int) :
    readOperand (Arg.imm v).operand next = pure (BitVec.ofInt 64 v) :=
  readOperand_ofSource (.imm v) .byte

@[simp] theorem readScalar_xmm (x : Xmm) (double : Bool) :
    readScalar (Arg.xmm x).operand double next = readLane (.reg x) double next :=
  readScalar_ofXm (.reg x) double 16

@[simp] theorem sizeOf_gpr (r : Gpr) (w : Width) :
    Machine.sizeOf (Arg.gpr r w).operand = UInt8.ofNat w.bytes := rfl

@[simp] theorem sizeOf_ofRm (x : Rm) (w : Width) :
    Machine.sizeOf (Arg.ofRm x w).operand = UInt8.ofNat w.bytes := by
  cases x <;> rfl

theorem low_readWord (m : Memory) (a : Word) (w : Width) :
    low (BitVec.ofNat 64 (m.readWord a w.bytes)) w = BitVec.ofNat 64 (m.readWord a w.bytes) := by
  have hlt : m.readWord a w.bytes < 2 ^ w.bits := by
    rw [Width.bits, Nat.pow_mul]
    exact m.readWord_lt a w.bytes
  apply BitVec.eq_of_toNat_eq
  rw [low, BitVec.toNat_setWidth_of_le w.bits_le, BitVec.toNat_setWidth, BitVec.toNat_ofNat,
    Nat.mod_eq_of_lt (Nat.lt_of_lt_of_le hlt (Nat.pow_le_pow_right (by decide) w.bits_le)),
    Nat.mod_eq_of_lt hlt]

/-- What has been read has no bits above its width. -/
theorem readRm_low_bind {α : Type} (x : Rm) (w : Width) (f : Word → MachineStep α) :
    (do f (low (← readRm x w next) w)) = readRm x w next >>= f := by
  cases x with
  | reg r =>
    simp only [readRm, readReg, bind_assoc, pure_bind, low_low]
  | mem m => simp only [readRm, loadBytes, bind_assoc, pure_bind, low_readWord]

@[simp] theorem signExtend_low (v : Word) (w : Width) :
    signExtend (low v w) w = signExtend v w := by
  cases w <;> simp [signExtend, low, Width.bits, Width.bytes]

/-! ### Integer operations -/

theorem interpretAlu_eq (op : AluOp) (w : Width) (dst : Rm) (src : Source) :
    interpretAlu op [(Arg.ofRm dst w).operand, (Arg.ofSource src w).operand] next =
      alu op w dst src next := by
  simp [interpretAlu, alu]

theorem interpretTest_eq (w : Width) (a : Rm) (b : Source) :
    interpretTest [(Arg.ofRm a w).operand, (Arg.ofSource b w).operand] next = test w a b next := by
  simp [interpretTest, test]

/-- A number taken from 0 has a borrow unless it is 0. -/
theorem cf_neg (w : Width) (a : Word) : (aluAt .sub w 0 a false).2.cf = (low a w != 0) := by
  have hzero : low a w = 0 ↔ (a.setWidth w.bits).toNat = 0 := by
    rw [← BitVec.toNat_inj, low, BitVec.toNat_setWidth_of_le w.bits_le]
    rfl
  rw [Bool.eq_iff_iff, bne_iff_ne, ne_eq, hzero]
  simp [aluAt, Flags.alu, Flags.sub, Flags.ofResult, Nat.pos_iff_ne_zero]

theorem interpretNeg_eq (w : Width) (x : Rm) :
    interpretNeg (Arg.ofRm x w).operand next = neg w x next := by
  simp only [interpretNeg, neg, pure_bind, sizeOf_ofRm, widthOf_bytes, readOperand_ofRm,
    writeOperand_ofRm, ← cf_neg]

theorem interpretWideningMul_eq (signed : Bool) (w : Width) (x : Rm) :
    interpretWideningMul signed (Arg.ofRm x w).operand next = wideningMul signed w x next := by
  rw [wideningMul, ← readRm_low_bind]
  simp [interpretWideningMul]

theorem interpretImul_two (w : Width) (dst : Gpr) (src : Rm) :
    interpretImul [(Arg.gpr dst w).operand, (Arg.ofRm src w).operand] next =
      execute (.imul w dst src none) next := by
  simp [interpretImul, execute, imul]

theorem interpretImul_three (w : Width) (dst : Gpr) (src : Rm) (factor : Int) :
    interpretImul [(Arg.gpr dst w).operand, (Arg.ofRm src w).operand, (Arg.imm factor).operand]
      next = execute (.imul w dst src (some factor)) next := by
  simp [interpretImul, execute, imul]

theorem interpretDivide_eq (signed : Bool) (w : Width) (x : Rm) :
    interpretDivide signed (Arg.ofRm x w).operand next = divide signed w x next := by
  rw [divide, ← readRm_low_bind]
  simp only [interpretDivide, sizeOf_ofRm, widthOf_bytes, pure_bind, readOperand_ofRm]

theorem interpretShift_eq (op : Shift) (w : Width) (dst : Rm) (count : ShiftCount) :
    interpretShift op [(Arg.ofRm dst w).operand, (Arg.ofCount count).operand] next =
      shift op w dst count next := by
  rw [shift, ← readRm_low_bind]
  simp only [interpretShift, operandAt_zero, operandAt_one, pure_bind, sizeOf_ofRm, widthOf_bytes,
    readOperand_ofRm, writeOperand_ofRm]
  refine bind_congr fun a => ?_
  cases count with
  | cl =>
    simp only [Arg.ofCount, readOperand_gpr, bind_map_left]
  | imm n =>
    have hn : (BitVec.ofNat 64 n.toNat).toNat = n.toNat :=
      Nat.mod_eq_of_lt (Nat.lt_trans n.toNat_lt (by decide))
    simp only [Arg.ofCount, readOperand_imm, BitVec.ofInt_natCast, pure_bind, hn]

theorem interpretBitScan_eq (reverse : Bool) (w : Width) (dst : Gpr) (src : Rm) :
    interpretBitScan reverse [(Arg.gpr dst w).operand, (Arg.ofRm src w).operand] next =
      bitScan reverse w dst src next := by
  rw [bitScan, ← readRm_low_bind]
  simp [interpretBitScan]

theorem interpretCmov_eq (cond : Cond) (w : Width) (dst : Gpr) (src : Rm) :
    interpretCmov cond [(Arg.gpr dst w).operand, (Arg.ofRm src w).operand] next =
      cmov cond w dst src next := by
  simp [interpretCmov, cmov]

/-- The accumulator is the register that the instruction compares. -/
theorem interpretCmpxchg_eq (w : Width) (dst : Rm) (src : Gpr) :
    interpretCmpxchg [(Arg.ofRm dst w).operand, (Arg.gpr src w).operand] next =
      cmpxchg w dst src next := by
  have haccumulator : RawOperand.gpr 0 (UInt8.ofNat w.bytes) = (Arg.gpr .rax w).operand := rfl
  simp [interpretCmpxchg, cmpxchg, haccumulator]

/-! ### Floating-point operations -/

theorem interpretMovs_eq (double : Bool) (dst src : Xm) :
    interpretMovs double [(Arg.ofXm dst (Decoded.scalarSize double)).operand,
      (Arg.ofXm src (Decoded.scalarSize double)).operand] next = movs double dst src next := by
  simp only [interpretMovs, movs, operandAt_zero, operandAt_one, pure_bind, readScalar_ofXm]
  refine bind_congr fun v => ?_
  cases dst with
  | reg d =>
    cases src with
    | reg s => exact writeScalar_xmm d double v
    | mem m =>
      change writeOperand (.xmm d.byte) v next = _
      rw [writeOperand, xmmAt_byte, pure_bind]
  | mem m =>
    have hsize : Decoded.scalarSize double = (laneWidth double).bytes := by cases double <;> rfl
    change writeOperand (Arg.mem m _).operand v next = _
    rw [hsize]
    exact writeOperand_ofRm (.mem m) (laneWidth double) v

theorem interpretSse_eq (op : SseOp) (double : Bool) (dst : Xmm) (src : Xm) (size : Nat) :
    interpretSse op double [(Arg.xmm dst).operand, (Arg.ofXm src size).operand] next =
      sse op double dst src next := by
  simp [interpretSse, sse]

theorem interpretUcomis_eq (double : Bool) (a : Xmm) (b : Xm) (size : Nat) :
    interpretUcomis double [(Arg.xmm a).operand, (Arg.ofXm b size).operand] next =
      ucomis double a b next := by
  simp [interpretUcomis, ucomis]

theorem interpretPacked_eq (op : PackedOp) (dst : Xmm) (src : Xm) (size : Nat) :
    interpretPacked op [(Arg.xmm dst).operand, (Arg.ofXm src size).operand] next =
      packed op dst src next := by
  simp only [interpretPacked, packed, operandAt_zero, operandAt_one, pure_bind, xmmIndex_xmm,
    xmmAt_byte, readWide_ofXm]

/-! ### All operations -/

/-- What the machine executes is the instruction whose operation and operands it has decoded. -/
theorem interpret_insn (i : Decoded) (next : Word) : interpret i.insn next = execute i next := by
  cases i with
  | mov | movzx | movsx | jmp | call | setcc | push | pop | movap | movToXmm | movFromXmm =>
    simp [interpret, execute, Decoded.insn, Decoded.op, Decoded.args]
  | lea => simp [interpret, execute, Decoded.insn, Decoded.op, Decoded.args, operand_mem]
  | alu op w dst src => exact interpretAlu_eq op w dst src
  | test w a b => exact interpretTest_eq w a b
  | unary op w x =>
    cases op with
    | not => simp [interpret, execute, not, Decoded.insn, Decoded.op, UnaryOp.op, Decoded.args]
    | neg => exact interpretNeg_eq w x
    | mul => exact interpretWideningMul_eq false w x
    | imul => exact interpretWideningMul_eq true w x
    | div => exact interpretDivide_eq false w x
    | idiv => exact interpretDivide_eq true w x
  | imul w dst src factor =>
    cases factor with
    | none => exact interpretImul_two w dst src
    | some factor => exact interpretImul_three w dst src factor
  | shift op w dst count => exact interpretShift_eq op w dst count
  | bitScan reverse w dst src => exact interpretBitScan_eq reverse w dst src
  | cmov cond w dst src => exact interpretCmov_eq cond w dst src
  | cdq | cqo | jcc | ret | nop | int3 | ud2 | pause | mfence => rfl
  | movs double dst src => exact interpretMovs_eq double dst src
  | sse op double dst src => exact interpretSse_eq op double dst src _
  | ucomis double a b => exact interpretUcomis_eq double a b _
  | packed op double dst src => exact interpretPacked_eq op dst src _
  | cvtFromInt =>
    simp [interpret, interpretCvtFromInt, execute, Decoded.insn, Decoded.op, Decoded.args]
  | cvtToInt => simp [interpret, interpretCvtToInt, execute, Decoded.insn, Decoded.op, Decoded.args]
  | cvtFloat =>
    simp [interpret, interpretCvtFloat, execute, Decoded.insn, Decoded.op, Decoded.args]
  | cmpxchg lock w dst src => exact interpretCmpxchg_eq w dst src

end Machine
end MachineCode
