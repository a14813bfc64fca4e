import MachineCode.Proofs.Execution.Computing

/-! Flags of a compare, and the conditions that they meet. -/
namespace MachineCode

open X64

/-! ### Flags of a difference -/

namespace Flags

variable {n : Nat} {a b : BitVec n}

theorem zf_sub : (sub a b false).2.zf = (a == b) := by
  have hzero : a - b = 0#n ↔ a = b := by
    rw [BitVec.sub_eq_iff_eq_add, BitVec.zero_add]
  have hresult : a - b - BitVec.ofNat n false.toNat = a - b := by simp
  rw [sub, hresult]
  exact Bool.eq_iff_iff.mpr (by simp only [ofResult, beq_iff_eq]; exact hzero)

theorem cf_sub : (sub a b false).2.cf = a.ult b := by
  simp [sub, ofResult, BitVec.ult_eq_decide]

/-- Sign and overflow differ where the difference is negative. -/
theorem sf_bne_of_sub (hn : 0 < n) : ((sub a b false).2.sf != (sub a b false).2.of) = a.slt b := by
  obtain ⟨m, rfl⟩ : ∃ m, n = m + 1 := ⟨n - 1, by omega⟩
  have hresult : a - b - BitVec.ofNat (m + 1) false.toNat = a - b := by simp
  have hpow : 2 ^ (m + 1) = 2 * 2 ^ m := by rw [Nat.pow_succ, Nat.mul_comm]
  have hsub : (a - b).toNat = a.toNat - b.toNat ∧ b.toNat ≤ a.toNat ∨
      (a - b).toNat = 2 ^ (m + 1) - b.toNat + a.toNat ∧ a.toNat < b.toNat := by
    have hb := b.isLt
    have ha := a.isLt
    rw [BitVec.toNat_sub]
    obtain hlt | hle := Nat.lt_or_ge a.toNat b.toNat
    · exact .inr ⟨Nat.mod_eq_of_lt (by omega), hlt⟩
    · rw [show 2 ^ (m + 1) - b.toNat + a.toNat = (a.toNat - b.toNat) + 2 ^ (m + 1) by
        omega, Nat.add_mod_right, Nat.mod_eq_of_lt (by omega)]
      exact .inl ⟨rfl, hle⟩
  have hmsb : ∀ x : BitVec (m + 1), x.msb = true ↔ 2 ^ m ≤ x.toNat := fun x => by
    rw [BitVec.msb_eq_decide, decide_eq_true_iff, Nat.add_sub_cancel]
  simp only [sub, hresult, ofResult, BitVec.msb_and, BitVec.msb_xor]
  rw [BitVec.slt_eq_decide, BitVec.toInt_eq_msb_cond a, BitVec.toInt_eq_msb_cond b]
  have ha := hmsb a
  have hb := hmsb b
  have hr := hmsb (a - b)
  have hla := a.isLt
  have hlb := b.isLt
  rw [hpow] at hsub hla hlb ⊢
  generalize a - b = r at hsub hr ⊢
  generalize 2 ^ m = k at hsub ha hb hr hla hlb ⊢
  cases hma : a.msb <;> cases hmb : b.msb <;> cases hmr :
      r.msb <;> simp [hma, hmb, hmr] at ha hb hr ⊢ <;> omega

/-- Sign extension keeps the unsigned order. -/
theorem ult_signExtend {n : Nat} (hle : n ≤ 64) (a b : BitVec n) :
    (a.signExtend 64).ult (b.signExtend 64) = a.ult b := by
  have hpow : 2 ^ n ≤ 2 ^ 64 := Nat.pow_le_pow_right (by decide) hle
  have hhalf : ∀ x : BitVec n, x.msb = true ↔ 2 ^ n ≤ 2 * x.toNat := fun x => by
    rw [BitVec.msb_eq_true_iff_two_mul_ge]
  have ha := hhalf a
  have hb := hhalf b
  have hla := a.isLt
  have hlb := b.isLt
  rw [BitVec.ult_eq_decide, BitVec.ult_eq_decide, BitVec.toNat_signExtend, BitVec.toNat_signExtend,
    BitVec.toNat_setWidth_of_le hle, BitVec.toNat_setWidth_of_le hle]
  cases hma : a.msb <;> cases hmb : b.msb <;> simp [hma, hmb] at ha hb ⊢ <;> omega

theorem ule_eq {n : Nat} (a b : BitVec n) : a.ule b = (a.ult b || a == b) := by
  refine Bool.eq_iff_iff.mpr ?_
  rw [BitVec.ule_eq_decide, BitVec.ult_eq_decide, Bool.or_eq_true,
    decide_eq_true_iff, decide_eq_true_iff, beq_iff_eq, ← BitVec.toNat_inj]
  exact Nat.le_iff_lt_or_eq

/-- The conditions on the flags of a difference are the conditions on its operands. -/
theorem cond_sub (hn : 0 < n) (hle : n ≤ 64) (c : Condition) :
    (sub a b false).2.cond (.ofCondition c) = c.eval (a.signExtend 64) (b.signExtend 64) := by
  have hnegate : ∀ c : Condition, (sub a b false).2.cond (.ofCondition c) =
      c.eval (a.signExtend 64) (b.signExtend 64) → (sub a b false).2.cond (.ofCondition c.negate) =
      c.negate.eval (a.signExtend 64) (b.signExtend 64) := fun c h => by
    rw [Cond.ofCondition_negate, cond_invert, h, Condition.eval_negate]
  have hsigned : ∀ x : BitVec n, (x.signExtend 64).toInt = x.toInt :=
    fun _ => BitVec.toInt_signExtend_of_le hle
  have hequal : (sub a b false).2.zf = (a.signExtend 64 == b.signExtend 64) := by
    refine Bool.eq_iff_iff.mpr ?_
    rw [zf_sub, beq_iff_eq, beq_iff_eq, ← BitVec.toInt_inj, ← BitVec.toInt_inj, hsigned, hsigned]
  have hless :
      ((sub a b false).2.sf != (sub a b false).2.of) = (a.signExtend 64).slt (b.signExtend 64) := by
    rw [sf_bne_of_sub hn, BitVec.slt_eq_decide, BitVec.slt_eq_decide, hsigned, hsigned]
  have hbelow : (sub a b false).2.cf = (a.signExtend 64).ult (b.signExtend 64) := by
    rw [cf_sub, ult_signExtend hle]
  cases c with
  | eq => exact hequal
  | ne => exact hnegate .eq hequal
  | lt => exact hless
  | ge => exact hnegate .lt hless
  | bt => exact hbelow
  | ae => exact hnegate .bt hbelow
  | le | gt =>
    have hle : (sub a b false).2.cond .le = (a.signExtend 64).sle (b.signExtend 64) := by
      rw [BitVec.sle_eq_slt_or_eq, ← hless, ← hequal, Bool.or_comm]
      rfl
    first | exact hle | exact hnegate .le hle
  | be | «at» =>
    have hle : (sub a b false).2.cond .be = (a.signExtend 64).ule (b.signExtend 64) := by
      rw [ule_eq, ← hbelow, ← hequal]
      rfl
    first | exact hle | exact hnegate .be hle

theorem cond_above (hn : 0 < n) (hle : n ≤ 64) : (sub a b false).2.cond .a = b.ult a :=
  (cond_sub hn hle .at).trans (ult_signExtend hle b a)

end Flags

/-- What a compare has found out: the operands of an integer compare at its width, or the order of
two floats with whether operands without an order count. -/
inductive Comparison where
  | words (w : Width) (a b : Word)
  | floats (order : FloatOrder) (unorderedIsTrue : Bool)

namespace Comparison

variable {x : Comparison}

/-- What is said of operands without an order. -/
def unorderedIsTrue : Comparison → Option Bool
  | words .. => none
  | floats _ unorderedIsTrue => some unorderedIsTrue

/-- The flags that the compare leaves. -/
def flags : Comparison → Flags
  | words w a b => (Machine.aluAt .cmp w a b false).2
  | floats order _ => Machine.orderFlags order

/-- Whether the condition holds. Of floats the unsigned conditions count. -/
def holds (c : Condition) : Comparison → Bool
  | words w a b => c.eval (Machine.signExtend a w) (Machine.signExtend b w)
  | floats .less _ => c.toUnsigned.eval 0 1
  | floats .equal _ => c.toUnsigned.eval 0 0
  | floats .greater _ => c.toUnsigned.eval 1 0
  | floats .unordered unorderedIsTrue => unorderedIsTrue

/-- An integer compare leaves these flags. -/
theorem executes_cmp {s : Machine} {next a b : Word} {w : Width} {x : Rm} {src : Source}
    (ha : s.ReadsRm next w a x) (hb : s.ReadsSource next w b src) :
    Machine.Executes (.alu .cmp w x src) next s fun c =>
      c = { s with flags := (words w a b).flags } := Machine.executes_cmp ha hb

/-- The flags of integers meet the conditions that the integers meet. -/
theorem cond_words {w : Width} {a b : Word} (c : Condition) :
    (words w a b).flags.cond (.ofCondition c) = (words w a b).holds c :=
  Flags.cond_sub (by cases w <;> decide) w.bits_le c

/-- The flags of ordered floats meet the unsigned conditions that the floats meet. -/
theorem cond_floats {order : FloatOrder} {unorderedIsTrue : Bool} (h : order ≠ .unordered)
    (c : Condition) :
    (floats order unorderedIsTrue).flags.cond (.ofCondition c.toUnsigned) =
      (floats order unorderedIsTrue).holds c := by
  cases order with
  | unordered => exact absurd rfl h
  | less | equal | greater => cases c <;> rfl

/-- Where the operands have an order, the conditions have their negations. -/
theorem holds_negate (h : ∀ unorderedIsTrue, x ≠ floats .unordered unorderedIsTrue)
    (c : Condition) :
    x.holds c.negate = !x.holds c := by
  cases x with
  | words w a b => exact Condition.eval_negate c _ _
  | floats order unorderedIsTrue =>
    cases order with
    | unordered => exact absurd rfl (h unorderedIsTrue)
    | less | equal | greater => cases c <;> rfl

theorem pf_floats {order : FloatOrder} {unorderedIsTrue : Bool} :
    (floats order unorderedIsTrue).flags.pf = (order == .unordered) := by
  cases order <;> rfl

end Comparison

end MachineCode
