import Mathlib.Tactic.LinearCombination
import MachineCode.Proofs.Execution.Comparing
import MachineCode.Proofs.Execution.Pairs

/-! Sums and differences with a carry. A result is the exact one, wrapped; the carry says that the
exact one has no place without a sign, and the overflow that it has none with a sign. So the
conditions on the flags of a difference are comparisons of the operands, and numbers of twice the
width are added and subtracted in halves. -/
namespace MachineCode

open X64

/-! ### Numbers in two halves -/

section Halves

variable {signed : Bool} {m n : Nat} {z : Int}

theorem ofInt_number (signed : Bool) (x : BitVec n) : BitVec.ofInt n (number signed x) = x := by
  cases signed with
  | true => exact BitVec.ofInt_toInt
  | false => rw [number_false, BitVec.ofInt_natCast, BitVec.ofNat_toNat, BitVec.setWidth_eq]

theorem ofInt_sub (z z' : Int) :
    BitVec.ofInt n (z - z') = BitVec.ofInt n z - BitVec.ofInt n z' := by
  rw [Int.sub_eq_add_neg, BitVec.ofInt_add, BitVec.ofInt_neg, ← BitVec.sub_eq_add_neg]

theorem number_false_ofInt (m : Nat) (z : Int) : number false (BitVec.ofInt m z) = z % 2 ^ m := by
  have hpow : ((2 ^ m : Nat) : Int) = 2 ^ m := by exact_mod_cast rfl
  have hpos : (0 : Int) < 2 ^ m := Int.pow_pos (by decide)
  rw [number_false, BitVec.toNat_ofInt, hpow,
    Int.toNat_of_nonneg (Int.emod_nonneg _ (Int.ne_of_gt hpos))]

/-- What is below a unit does not decide about a bound in units. -/
theorem mul_add_lt_mul_iff {N l K : Int} (hl : 0 ≤ l ∧ l < N) : z * N + l < K * N ↔ z < K := by
  have hpos : 0 < N := Int.lt_of_le_of_lt hl.1 hl.2
  have hdiv : (z * N + l) / N = z := by
    rw [Int.add_comm, Int.add_mul_ediv_right _ _ (Int.ne_of_gt hpos),
      Int.ediv_eq_zero_of_lt hl.1 hl.2, Int.zero_add]
  rw [← Int.ediv_lt_iff_lt_mul hpos, hdiv]

/-- The high half decides whether a number has a place. -/
theorem isNumber_append (hm : 0 < m) (z : Int) (l : BitVec n) :
    IsNumber signed (m + n) (z * 2 ^ n + l.toNat) ↔ IsNumber signed m z := by
  have hl : 0 ≤ (l.toNat : Int) ∧ (l.toNat : Int) < 2 ^ n :=
    ⟨Int.natCast_nonneg _, by exact_mod_cast l.isLt⟩
  have hlt : ∀ K : Int, z * 2 ^ n + l.toNat < K * 2 ^ n ↔ z < K := fun K => mul_add_lt_mul_iff hl
  have hle : ∀ K : Int, K * 2 ^ n ≤ z * 2 ^ n + l.toNat ↔ K ≤ z :=
    fun K => by rw [← Int.not_lt, hlt, Int.not_lt]
  cases signed with
  | true =>
    have hpow : (2 : Int) ^ (m + n - 1) = 2 ^ (m - 1) * 2 ^ n := by
      rw [← Int.pow_add, show m + n - 1 = m - 1 + n by omega]
    rw [isNumber_true, isNumber_true, hpow, ← Int.neg_mul, hle, hlt]
  | false =>
    have hzero : 0 ≤ z * 2 ^ n + l.toNat ↔ 0 ≤ z := by simpa using hle 0
    rw [isNumber_false, isNumber_false, Int.pow_add, hzero, hlt]

theorem number_append (hm : 0 < m) (h : BitVec m) (l : BitVec n) :
    number signed (h ++ l) = number signed h * 2 ^ n + l.toNat := by
  cases signed with
  | true => rw [number_true, number_true, BitVec.toInt_append,
    if_neg (by simpa using Nat.ne_of_gt hm), Int.mul_comm]
  | false =>
    rw [number_false, number_false, BitVec.toNat_append,
      ← Nat.shiftLeft_add_eq_or_of_lt l.isLt, Nat.shiftLeft_eq]
    push_cast
    rfl

theorem ofInt_append (hm : 0 < m) (z : Int) (l : BitVec n) :
    BitVec.ofInt m z ++ l = BitVec.ofInt (m + n) (z * 2 ^ n + l.toNat) := by
  have hsplit :
      z * 2 ^ n + l.toNat = number false (BitVec.ofInt m z ++ l) + 2 ^ (m + n) * (z / 2 ^ m) := by
    have hz : z % 2 ^ m + 2 ^ m * (z / 2 ^ m) = z := Int.emod_add_mul_ediv z (2 ^ m)
    rw [number_append hm, number_false_ofInt, Int.pow_add]
    conv_lhs => rw [← hz]
    ring
  have hzero : BitVec.ofInt (m + n) (2 ^ (m + n)) = 0#(m + n) := by
    have hnumber : number false (BitVec.ofInt (m + n) (2 ^ (m + n))) = 0 := by
      rw [number_false_ofInt, Int.emod_self]
    exact number_eq_zero.mp hnumber
  rw [hsplit, BitVec.ofInt_add, BitVec.ofInt_mul, hzero, BitVec.zero_mul,
    BitVec.add_zero, ofInt_number]

/-- Half of the numbers of a width, as it bounds them without a sign and with one. -/
theorem exists_half (hn : 0 < n) : ∃ H : Nat, 2 ^ n = 2 * H ∧ (2 : Int) ^ (n - 1) = H :=
  ⟨2 ^ (n - 1), by rw [← Nat.pow_succ', Nat.succ_eq_add_one, Nat.sub_add_cancel hn],
    by exact_mod_cast rfl⟩

theorem msb_cases (x : BitVec n) {H : Nat} (hH : 2 ^ n = 2 * H) :
    x.msb = true ∧ H ≤ x.toNat ∧ x.toNat < 2 * H ∧ x.toInt = x.toNat - 2 * H ∨
      x.msb = false ∧ x.toNat < H ∧ x.toInt = x.toNat := by
  have hlt : x.toNat < 2 * H := hH ▸ x.isLt
  have hmsb : x.msb = true ↔ H ≤ x.toNat := by
    rw [BitVec.msb_eq_true_iff_two_mul_ge, hH]
    omega
  have hint := BitVec.toInt_eq_msb_cond x
  rw [hH] at hint
  cases hx : x.msb with
  | true => exact .inl ⟨rfl, hmsb.mp hx, hlt, by rw [hint, if_pos hx]; rfl⟩
  | false =>
    rw [hx] at hint hmsb
    exact .inr ⟨rfl, Nat.lt_of_not_le fun hle => Bool.false_ne_true (hmsb.mpr hle), hint⟩

end Halves

namespace Flags

variable {m n : Nat}

/-! ### Exact results -/

/-- The result is an exact one, wrapped, which `z` gives for operands without a sign and with one.
Carry and overflow say that it has no place. -/
structure Wraps (f : Flags) (r : BitVec n) (z : Bool → Int) : Prop where
  result : ∀ signed, r = BitVec.ofInt n (z signed)
  carry : f.cf = true ↔ ¬ IsNumber false n (z false)
  overflow : f.of = true ↔ ¬ IsNumber true n (z true)

/-- Low bits that are exact can be put behind a result. -/
theorem Wraps.append {f : Flags} {r : BitVec m} {z : Bool → Int} (h : f.Wraps r z) (hm : 0 < m)
    (l : BitVec n) :
    f.Wraps (r ++ l) fun signed => z signed * 2 ^ n + l.toNat where
  result signed := by rw [← ofInt_append hm, ← h.result signed]
  carry := by rw [isNumber_append hm, h.carry]
  overflow := by rw [isNumber_append hm, h.overflow]

/-! ### Sums -/

section Sums

variable {a b : BitVec n} {c : Bool}

theorem toNat_add :
    (add a b c).1.toNat + 2 ^ n * (add a b c).2.cf.toNat = a.toNat + b.toNat + c.toNat := by
  have ha := a.isLt
  have hb := b.isLt
  have hc : c.toNat ≤ 1 := c.toNat_le
  simp only [add, ofResult, pow2_eq, BitVec.toNat_add, BitVec.toNat_ofNat,
    Nat.mod_add_mod, Nat.add_mod_mod]
  generalize 2 ^ n = N at *
  by_cases hcarry : N ≤ a.toNat + b.toNat + c.toNat
  · rw [Nat.mod_eq_sub_mod hcarry, Nat.mod_eq_of_lt (by omega),
      decide_eq_true hcarry, Bool.toNat_true]
    omega
  · rw [Nat.mod_eq_of_lt (by omega), decide_eq_false hcarry, Bool.toNat_false]
    omega

theorem of_add :
    (add a b c).2.of = ((a.msb ^^ (add a b c).1.msb) && (b.msb ^^ (add a b c).1.msb)) := by
  simp [add, ofResult, BitVec.msb_and, BitVec.msb_xor]

theorem wraps_add (hn : 0 < n) (a b : BitVec n) (c : Bool) :
    (add a b c).2.Wraps (add a b c).1 fun signed =>
      number signed a + number signed b + c.toNat where
  result signed := by
    rw [BitVec.ofInt_add, BitVec.ofInt_add, ofInt_number, ofInt_number, BitVec.ofInt_natCast]
    rfl
  carry := by
    have hcarry : (add a b c).2.cf = decide (2 ^ n ≤ a.toNat + b.toNat + c.toNat) := by
      rw [add, ofResult, pow2_eq]
    rw [hcarry, decide_eq_true_iff, isNumber_false, number_false, number_false]
    norm_cast
    omega
  overflow := by
    obtain ⟨H, hH, hbound⟩ := exists_half hn
    have hsum : (add a b c).1.toNat + _ = _ := toNat_add (a := a) (b := b) (c := c)
    have hc : c.toNat ≤ 1 := c.toNat_le
    have hr := msb_cases (add a b c).1 hH
    rw [of_add, isNumber_true, number_true, number_true, hbound]
    rw [hH] at hsum
    generalize (add a b c).1 = r at *
    generalize (add a b c).2.cf = cf at *
    -- The signs of the operands and of the result decide on which side of the bounds the sum is.
    obtain ⟨ha, ha'⟩ | ⟨ha, ha'⟩ :=
      msb_cases a hH <;> obtain ⟨hb, hb'⟩ | ⟨hb, hb'⟩ := msb_cases b hH <;>
      obtain ⟨hr, hr'⟩ | ⟨hr, hr'⟩ := hr <;> rw [ha, hb, hr] <;> cases cf <;>
      simp only [Bool.toNat_true, Bool.toNat_false] at hsum <;> simp <;> omega

end Sums

/-! ### Differences -/

section Differences

variable {a b : BitVec n} {c : Bool}

/-- What has been taken away is there again when it is added. -/
theorem add_sub_cancel (a b : BitVec n) (c : Bool) : (add (sub a b c).1 b c).1 = a := by
  simp only [add, sub]
  rw [BitVec.add_assoc, BitVec.add_comm b, ← BitVec.add_assoc, BitVec.sub_add_cancel,
    BitVec.sub_add_cancel]

theorem of_sub_eq_add : (sub a b c).2.of = (add (sub a b c).1 b c).2.of := by
  rw [of_add, add_sub_cancel]
  simp only [sub, ofResult, BitVec.msb_and, BitVec.msb_xor]
  rw [Bool.and_comm, Bool.xor_comm a.msb, Bool.xor_comm a.msb]

theorem cf_sub_eq_add : (sub a b c).2.cf = (add (sub a b c).1 b c).2.cf := by
  have hsum : _ = (sub a b c).1.toNat + b.toNat + c.toNat := toNat_add
  have hborrow : (sub a b c).2.cf = decide (a.toNat < b.toNat + c.toNat) := rfl
  have ha := a.isLt
  have hr := (sub a b c).1.isLt
  rw [add_sub_cancel] at hsum
  rw [hborrow]
  generalize (sub a b c).1 = r at *
  cases hcarry : (add r b c).2.cf with
  | true =>
    rw [hcarry, Bool.toNat_true] at hsum
    exact decide_eq_true (by omega)
  | false =>
    rw [hcarry, Bool.toNat_false] at hsum
    exact decide_eq_false (by omega)

theorem toNat_sub :
    (sub a b c).1.toNat + b.toNat + c.toNat = a.toNat + 2 ^ n * (sub a b c).2.cf.toNat := by
  rw [cf_sub_eq_add, ← toNat_add, add_sub_cancel]

/-- A difference has a place where the sum does that takes it back. -/
theorem wraps_sub (hn : 0 < n) (a b : BitVec n) (c : Bool) :
    (sub a b c).2.Wraps (sub a b c).1 fun signed =>
      number signed a - number signed b - c.toNat := by
  have hsum := wraps_add hn (sub a b c).1 b c
  have hresult : ∀ signed, (sub a b c).1 =
      BitVec.ofInt n (number signed a - number signed b - c.toNat) := fun signed => by
    rw [ofInt_sub, ofInt_sub, ofInt_number, ofInt_number, BitVec.ofInt_natCast]
    rfl
  rw [add_sub_cancel] at hsum
  have hplace :
      ∀ signed, IsNumber signed n (number signed (sub a b c).1 + number signed b + c.toNat) ↔
      IsNumber signed n (number signed a - number signed b - c.toNat) := fun signed => by
    constructor <;> intro hnumber
    · have ha : number signed a = _ :=
        (congrArg _ (hsum.result signed)).trans (number_ofInt hn hnumber)
      rw [show number signed a - number signed b - c.toNat = number signed (sub a b c).1 by omega]
      exact isNumber_number signed _
    · have hr : number signed (sub a b c).1 = _ :=
        (congrArg _ (hresult signed)).trans (number_ofInt hn hnumber)
      rw [show number signed (sub a b c).1 + number signed b + c.toNat = number signed a by omega]
      exact isNumber_number signed _
  exact ⟨hresult, by rw [cf_sub_eq_add, hsum.carry, hplace],
    by rw [of_sub_eq_add, hsum.overflow, hplace]⟩

end Differences

/-! ### Two halves, one after the other -/

section Halves

variable (hm : 0 < m) (hi hi' : BitVec m) (lo lo' : BitVec n) (c : Bool)

include hm

theorem wraps_add_append :
    (add hi hi' (add lo lo' c).2.cf).2.Wraps
      ((add hi hi' (add lo lo' c).2.cf).1 ++ (add lo lo' c).1)
    fun signed => number signed (hi ++ lo) + number signed (hi' ++ lo') + c.toNat := by
  have hlow : ((add lo lo' c).1.toNat : Int) + 2 ^ n * (add lo lo' c).2.cf.toNat =
      lo.toNat + lo'.toNat + c.toNat := by
    exact_mod_cast toNat_add
  have hexact : ∀ signed, number signed (hi ++ lo) + number signed (hi' ++ lo') + c.toNat =
      (number signed hi + number signed hi' + (add lo lo' c).2.cf.toNat) * 2 ^ n +
        (add lo lo' c).1.toNat := fun signed => by
    rw [number_append hm, number_append hm]
    linear_combination -hlow
  rw [funext hexact]
  exact (wraps_add hm hi hi' _).append hm _

theorem wraps_sub_append :
    (sub hi hi' (sub lo lo' c).2.cf).2.Wraps
      ((sub hi hi' (sub lo lo' c).2.cf).1 ++ (sub lo lo' c).1)
    fun signed => number signed (hi ++ lo) - number signed (hi' ++ lo') - c.toNat := by
  have hlow : ((sub lo lo' c).1.toNat : Int) + lo'.toNat + c.toNat =
      lo.toNat + 2 ^ n * (sub lo lo' c).2.cf.toNat := by
    exact_mod_cast toNat_sub
  have hexact : ∀ signed, number signed (hi ++ lo) - number signed (hi' ++ lo') - c.toNat =
      (number signed hi - number signed hi' - (sub lo lo' c).2.cf.toNat) * 2 ^ n +
        (sub lo lo' c).1.toNat := fun signed => by
    rw [number_append hm, number_append hm]
    linear_combination -hlow
  rw [funext hexact]
  exact (wraps_sub hm hi hi' _).append hm _

end Halves

/-! ### Conditions -/

/-- The parity flag is set where an even number of bits is. -/
theorem evenParity_iff (b : BitVec 8) :
    evenParity b = true ↔ 2 ∣ (List.range 8).countP b.getLsbD := by
  have hfold : ∀ (l : List Nat) (odd : Bool), l.foldl (fun odd i => odd ^^ b.getLsbD i) odd = true ↔
      (l.countP b.getLsbD + odd.toNat) % 2 = 1 := by
    intro l
    induction l with
    | nil =>
      intro odd
      cases odd <;> simp
    | cons i l ih =>
      intro odd
      rw [List.foldl_cons, ih, List.countP_cons]
      cases odd <;> cases b.getLsbD i <;> simp
      omega
  rw [evenParity, Bool.not_eq_true', ← Bool.not_eq_true, hfold, Bool.toNat_false]
  omega

end Flags

/-- What a condition says of two operands: how they compare without a sign or with one, or the sign,
the overflow or the parity of their difference. -/
def X64.Cond.Compares {n : Nat} (a b : BitVec n) : Cond → Prop
  | .o => ¬ IsNumber true n (a.toInt - b.toInt)
  | .no => IsNumber true n (a.toInt - b.toInt)
  | .b => a.toNat < b.toNat
  | .ae => b.toNat ≤ a.toNat
  | .e => a = b
  | .ne => a ≠ b
  | .be => a.toNat ≤ b.toNat
  | .a => b.toNat < a.toNat
  | .s => (a - b).toInt < 0
  | .ns => 0 ≤ (a - b).toInt
  | .p => 2 ∣ (List.range 8).countP (a - b).getLsbD
  | .np => ¬ 2 ∣ (List.range 8).countP (a - b).getLsbD
  | .l => a.toInt < b.toInt
  | .ge => b.toInt ≤ a.toInt
  | .le => a.toInt ≤ b.toInt
  | .g => b.toInt < a.toInt

theorem X64.Cond.compares_invert {n : Nat} (a b : BitVec n) (c : Cond) :
    c.invert.Compares a b ↔ ¬ c.Compares a b := by
  cases c <;> simp only [invert, Compares, not_not, not_lt, not_le, ne_eq]

namespace Flags

variable {n : Nat} {a b : BitVec n}

theorem fst_sub (a b : BitVec n) : (sub a b false).1 = a - b := by simp [sub]

theorem sf_sub : (sub a b false).2.sf = true ↔ (a - b).toInt < 0 := by
  have hsf : (sub a b false).2.sf = (sub a b false).1.msb := rfl
  rw [hsf, fst_sub, BitVec.msb_eq_toInt, decide_eq_true_iff]

theorem pf_sub : (sub a b false).2.pf = true ↔ 2 ∣ (List.range 8).countP (a - b).getLsbD := by
  have hpf : (sub a b false).2.pf = evenParity ((sub a b false).1.setWidth 8) := rfl
  have hlow :
      (List.range 8).countP ((a - b).setWidth 8).getLsbD = (List.range 8).countP (a - b).getLsbD :=
    List.countP_congr fun i hi => by simp [List.mem_range.mp hi]
  rw [hpf, fst_sub, evenParity_iff, hlow]

/-- A condition on the flags of a difference is a comparison of the operands. -/
theorem cond_sub_iff (hn : 0 < n) (a b : BitVec n) (c : Cond) :
    (sub a b false).2.cond c = true ↔ c.Compares a b := by
  have hinvert : ∀ c : Cond, ((sub a b false).2.cond c = true ↔ c.Compares a b) →
      ((sub a b false).2.cond c.invert = true ↔ c.invert.Compares a b) := fun c h => by
    rw [cond_invert, Cond.compares_invert, ← h, Bool.not_eq_true', Bool.not_eq_true]
  have hbelow : (sub a b false).2.cf = true ↔ a.toNat < b.toNat := by
    rw [cf_sub, BitVec.ult_eq_decide, decide_eq_true_iff]
  have hequal : (sub a b false).2.zf = true ↔ a = b := by rw [zf_sub, beq_iff_eq]
  have hless : ((sub a b false).2.sf != (sub a b false).2.of) = true ↔ a.toInt < b.toInt := by
    rw [sf_bne_of_sub hn, BitVec.slt_eq_decide, decide_eq_true_iff]
  have hoverflow : (sub a b false).2.of = true ↔ ¬ IsNumber true n (a.toInt - b.toInt) := by
    simpa only [number_true, Bool.toNat_false, Int.natCast_zero, Int.sub_zero] using
      (wraps_sub hn a b false).overflow
  have hbelowOrEqual : (sub a b false).2.cond .be = true ↔ Cond.Compares a b .be := by
    simp only [cond, Bool.or_eq_true, hbelow, hequal, ← BitVec.toNat_inj, Cond.Compares]
    exact Nat.le_iff_lt_or_eq.symm
  have hlessOrEqual : (sub a b false).2.cond .le = true ↔ Cond.Compares a b .le := by
    simp only [cond, Bool.or_eq_true, hless, hequal, ← BitVec.toInt_inj, Cond.Compares]
    omega
  cases c with
  | o => exact hoverflow
  | no => exact hinvert .o hoverflow
  | b => exact hbelow
  | ae => exact hinvert .b hbelow
  | e => exact hequal
  | ne => exact hinvert .e hequal
  | be => exact hbelowOrEqual
  | a => exact hinvert .be hbelowOrEqual
  | s => exact sf_sub
  | ns => exact hinvert .s sf_sub
  | p => exact pf_sub
  | np => exact hinvert .p pf_sub
  | l => exact hless
  | ge => exact hinvert .l hless
  | le => exact hlessOrEqual
  | g => exact hinvert .le hlessOrEqual

end Flags

namespace Machine

theorem snd_aluAt (op : AluOp) (w : Width) (a b : Word) (c : Bool) :
    (aluAt op w a b c).2 = (Flags.alu op (a.setWidth w.bits) (b.setWidth w.bits) c).2 := rfl

theorem setWidth_fst_aluAt (op : AluOp) (w : Width) (a b : Word) (c : Bool) :
    (aluAt op w a b c).1.setWidth w.bits =
      (Flags.alu op (a.setWidth w.bits) (b.setWidth w.bits) c).1 := by
  simp only [aluAt]
  rw [BitVec.setWidth_setWidth_of_le _ w.bits_le, BitVec.setWidth_eq]

/-- At any width, the conditions on the flags of a difference compare the operands. With a carry
that comes in, sums and differences are the exact ones, wrapped, and carry and overflow say which of
them have no place without a sign and with one; so the low halves of two numbers and then the high
halves, with the carry of the low ones, give the sum and the difference at twice the width, with
their carry and their overflow. -/
theorem compares_and_carries (w : Width) (a b : Word) (c : Bool) :
    let x := a.setWidth w.bits
    let y := b.setWidth w.bits
    (∀ cond : Cond, ((aluAt .sub w a b c).2.cond cond = true ↔ cond.Compares x y) ∧
      ((aluAt .cmp w a b c).2.cond cond = true ↔ cond.Compares x y)) ∧
    ((aluAt .adc w a b c).2.Wraps ((aluAt .adc w a b c).1.setWidth w.bits) fun signed =>
      number signed x + number signed y + c.toNat) ∧
    ((aluAt .sbb w a b c).2.Wraps ((aluAt .sbb w a b c).1.setWidth w.bits) fun signed =>
      number signed x - number signed y - c.toNat) ∧
    ∀ hi hi' : Word,
      let u := hi.setWidth w.bits ++ x
      let v := hi'.setWidth w.bits ++ y
      let sum := aluAt .adc w hi hi' (aluAt .add w a b c).2.cf
      let difference := aluAt .sbb w hi hi' (aluAt .sub w a b c).2.cf
      sum.1.setWidth w.bits ++ (aluAt .add w a b c).1.setWidth w.bits = u + v ∧
      (sum.2.Wraps (u + v) fun signed => number signed u + number signed v) ∧
      difference.1.setWidth w.bits ++ (aluAt .sub w a b c).1.setWidth w.bits = u - v ∧
      difference.2.Wraps (u - v) fun signed => number signed u - number signed v := by
  intro x y
  simp only [snd_aluAt, setWidth_fst_aluAt]
  have hw := w.bits_pos
  refine ⟨fun cond => ⟨Flags.cond_sub_iff hw x y cond, Flags.cond_sub_iff hw x y cond⟩,
    Flags.wraps_add hw x y c, Flags.wraps_sub hw x y c, fun hi hi' => ?_⟩
  -- Without a carry into the low halves the exact results are those of the whole numbers.
  have hsum := Flags.wraps_add_append hw (hi.setWidth w.bits) (hi'.setWidth w.bits) x y false
  have hdifference := Flags.wraps_sub_append hw (hi.setWidth w.bits) (hi'.setWidth w.bits) x y false
  simp only [Bool.toNat_false, Int.natCast_zero, Int.add_zero, Int.sub_zero] at hsum hdifference
  have h₁ := hsum.result false
  have h₂ := hdifference.result false
  rw [BitVec.ofInt_add, ofInt_number, ofInt_number] at h₁
  rw [ofInt_sub, ofInt_number, ofInt_number] at h₂
  exact ⟨h₁, h₁ ▸ hsum, h₂, h₂ ▸ hdifference⟩

/-- The least byte is less than 1 with a sign and above it without one, and the difference
overflows. -/
example : [Cond.l, .a, .o, .ns].all (aluAt .cmp .byte 0x80 1 true).2.cond = true := by decide

end Machine

end MachineCode
