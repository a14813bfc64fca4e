import MachineCode.Proofs.Numbers
import Mathlib.Algebra.Order.Field.Power
import Mathlib.Data.Rat.Floor
import Mathlib.Tactic.Positivity
import MachineCode.Machine.Execute

/-! Floats as rational numbers, and their conversion to integers of a bounded width. -/
namespace MachineCode

open X64 Machine

namespace FloatValue

/-! ### Truncation -/

/-- The number that a finite value stands for. -/
def rational? : FloatValue → Option Rat
  | finite neg m e => some (signed neg m * 2 ^ e)
  | _ => none

/-- The integer that is next to the number on the side of zero. -/
def towardZero (q : Rat) : Int := if 0 ≤ q then ⌊q⌋ else ⌈q⌉

theorem towardZero_of_nonneg {q : Rat} (h : 0 ≤ q) : towardZero q = ⌊q⌋ := if_pos h

theorem towardZero_neg {q : Rat} (h : 0 ≤ q) : towardZero (-q) = -⌊q⌋ := by
  unfold towardZero
  split
  · obtain rfl : q = 0 := le_antisymm (neg_nonneg.mp ‹_›) h
    simp
  · exact Int.ceil_neg

theorem towardZero_nonneg {q : Rat} (h : 0 ≤ q) : 0 ≤ towardZero q := by
  rw [towardZero_of_nonneg h]
  exact Int.floor_nonneg.mpr h

theorem towardZero_nonpos {q : Rat} (h : q ≤ 0) : towardZero q ≤ 0 := by
  have hneg : 0 ≤ -q := neg_nonneg.mpr h
  rw [← neg_neg q, towardZero_neg hneg]
  exact neg_nonpos.mpr (Int.floor_nonneg.mpr hneg)

/-- A shift to the right rounds down. -/
theorem floor_scaled (m : Nat) (e : Int) :
    ⌊(m : Rat) * 2 ^ e⌋ =
      ((if 0 ≤ e then m * pow2 e.toNat else m / pow2 (-e).toNat : Nat) : Int) := by
  simp only [pow2_eq]
  split
  · rename_i he
    obtain ⟨k, rfl⟩ := Int.eq_ofNat_of_zero_le he
    rw [show (m : Rat) * 2 ^ (k : Int) = ((m * 2 ^ k : Nat) : Rat) by
      push_cast; rw [zpow_natCast], Int.floor_natCast]
    rfl
  · rename_i he
    obtain ⟨k, hk⟩ := Int.eq_ofNat_of_zero_le (a := -e) (by omega)
    obtain rfl : e = -k := by omega
    rw [show (m : Rat) * 2 ^ (-k : Int) = (m : Rat) / ((2 ^ k : Nat) : Rat) by
      push_cast
      rw [zpow_neg, zpow_natCast, div_eq_mul_inv], Rat.floor_natCast_div_natCast, hk]
    rfl

/-- What is left of a finite value is next to it on the side of zero. -/
theorem truncate?_eq (v : FloatValue) : v.truncate? = v.rational?.map towardZero := by
  cases v with
  | nan => rfl
  | infinite neg => rfl
  | finite neg m e =>
    have hq : (0 : Rat) ≤ (m : Rat) * 2 ^ e := by positivity
    have hfloor := floor_scaled m e
    cases neg with
    | false =>
      have heq : ((signed false m : Int) : Rat) * 2 ^ e = (m : Rat) * 2 ^ e := by simp [signed]
      rw [rational?, Option.map_some, heq, towardZero_of_nonneg hq, hfloor]
      rfl
    | true =>
      have heq : ((signed true m : Int) : Rat) * 2 ^ e = -((m : Rat) * 2 ^ e) := by simp [signed]
      rw [rational?, Option.map_some, heq, towardZero_neg hq, hfloor]
      rfl

/-! ### Integers of a bounded width -/

/-- The integer of `n` bits that a value is converted to: 0 for NaN, and for what is out of range
the nearest one. -/
def saturated (n : Nat) : FloatValue → Int
  | nan => 0
  | infinite neg => if neg then -2 ^ (n - 1) else 2 ^ (n - 1) - 1
  | finite neg m e => max (-2 ^ (n - 1)) (min (towardZero (signed neg m * 2 ^ e)) (2 ^ (n - 1) - 1))

/-- The integer of `n` bits that the hardware delivers: the least one for all that does not fit. -/
def delivered (n : Nat) (v : FloatValue) : Int :=
  match v.truncate? with
  | some t => if -2 ^ (n - 1) ≤ t ∧ t < 2 ^ (n - 1) then t else -2 ^ (n - 1)
  | none => -2 ^ (n - 1)

variable {n : Nat} {v : FloatValue}

theorem delivered_finite (n : Nat) (neg : Bool) (m : Nat) (e : Int) :
    let t := towardZero (signed neg m * 2 ^ e)
    delivered n (finite neg m e) = if -2 ^ (n - 1) ≤ t ∧ t < 2 ^ (n - 1) then t
      else -2 ^ (n - 1) := by
  simp only [delivered, truncate?_eq, rational?, Option.map_some]

theorem delivered_mem (n : Nat) (v : FloatValue) :
    -2 ^ (n - 1) ≤ v.delivered n ∧ v.delivered n < 2 ^ (n - 1) := by
  have hpow : (0 : Int) < 2 ^ (n - 1) := by positivity
  unfold delivered
  split
  · split <;> omega
  · omega

/-- What the hardware delivers is right if it is not the least integer. -/
theorem saturated_of_ne (h : v.delivered n ≠ -2 ^ (n - 1)) : v.saturated n = v.delivered n := by
  cases v with
  | nan => exact absurd rfl h
  | infinite neg => exact absurd rfl h
  | finite neg m e =>
    rw [delivered_finite] at h ⊢
    split at h
    · rename_i hrange
      rw [if_pos hrange, saturated]
      omega
    · exact absurd rfl h

theorem compare_self_eq_unordered : v.compare v = .unordered ↔ v = nan := by
  cases v with
  | nan => simp [compare]
  | infinite neg => simp [compare]
  | finite neg m e => simp [compare, compareScaled]

theorem compare_finite_eq_unordered {neg : Bool} {m : Nat} {e : Int} :
    v.compare (finite neg m e) = .unordered ↔ v = nan := by
  cases v with
  | nan => simp [compare]
  | infinite neg' => cases neg' <;> simp [compare]
  | finite neg' m' e' =>
    simp only [compare, compareScaled, reduceCtorEq, iff_false]
    split
    · nofun
    · split <;> nofun

/-- A finite value is below zero if its sign says so. -/
theorem compare_zero (neg : Bool) (m : Nat) (e least : Int) :
    (finite neg m e).compare (finite false 0 least) = .less ↔ signed neg m < 0 := by
  have hzero : signed false 0 = 0 := rfl
  have hpos : (0 : Int) < pow2 (e - min e least).toNat := by
    rw [pow2_eq]
    positivity
  rw [compare, compareScaled, hzero, zero_mul]
  constructor
  · intro h
    split at h
    · rename_i hneg
      exact neg_of_mul_neg_left hneg hpos.le
    · split at h <;> cases h
  · intro h
    exact if_pos (mul_neg_of_neg_of_pos h hpos)

/-- The least integer is right below zero. -/
theorem saturated_of_less {least : Int} (h : v.delivered n = -2 ^ (n - 1))
    (hless : v.compare (finite false 0 least) = .less) : v.saturated n = -2 ^ (n - 1) := by
  cases v with
  | nan => cases hless
  | infinite neg =>
    cases neg with
    | true => rfl
    | false => cases hless
  | finite neg m e =>
    have hneg : ((signed neg m : Int) : Rat) * 2 ^ e ≤ 0 :=
      mul_nonpos_of_nonpos_of_nonneg
        (Int.cast_nonpos.mpr ((compare_zero neg m e least).mp hless).le) (by positivity)
    have ht := towardZero_nonpos hneg
    have hpow : (0 : Int) < 2 ^ (n - 1) := by positivity
    rw [delivered_finite] at h
    rw [saturated]
    split at h <;> omega

/-- In its place the greatest one is right for a number that is not below zero. -/
theorem saturated_of_not_less {least : Int} (h : v.delivered n = -2 ^ (n - 1)) (hnan : v ≠ nan)
    (hless : v.compare (finite false 0 least) ≠ .less) : v.saturated n = 2 ^ (n - 1) - 1 := by
  cases v with
  | nan => exact absurd rfl hnan
  | infinite neg =>
    cases neg with
    | true => exact absurd rfl hless
    | false => rfl
  | finite neg m e =>
    have hsign : ¬ signed neg m < 0 := fun h => hless ((compare_zero neg m e least).mpr h)
    have hpos : 0 ≤ ((signed neg m : Int) : Rat) * 2 ^ e :=
      mul_nonneg (Int.cast_nonneg (not_lt.mp hsign)) (by positivity)
    have ht := towardZero_nonneg hpos
    have hpow : (0 : Int) < 2 ^ (n - 1) := by positivity
    rw [delivered_finite] at h
    rw [saturated]
    split at h <;> omega

/-- The result is an integer of `n` bits. -/
theorem saturated_mem (n : Nat) (v : FloatValue) :
    -2 ^ (n - 1) ≤ v.saturated n ∧ v.saturated n < 2 ^ (n - 1) := by
  have hpow : (0 : Int) < 2 ^ (n - 1) := by positivity
  cases v with
  | nan => rw [saturated]; omega
  | infinite neg => rw [saturated]; split <;> omega
  | finite neg m e => rw [saturated]; omega

end FloatValue

end MachineCode
