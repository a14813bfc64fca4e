import MachineCode.Displacement
import Mathlib.Algebra.Order.Ring.Int

/-! Powers of two, little-endian numbers and the range of displacements. -/
namespace MachineCode

@[simp] theorem pow2_eq (n : Nat) : pow2 n = 2 ^ n := Nat.one_shiftLeft n

theorem cast_pow2 (n : Nat) : (pow2 n : Int) = 2 ^ n := by simp

theorem ofLeBytes_leBytes (k n : Nat) : ofLeBytes (leBytes k n) = n % 256 ^ k := by
  induction k generalizing n with
  | zero => simp [leBytes, ofLeBytes, Nat.mod_one]
  | succ k ih =>
    rw [leBytes, ofLeBytes, ih, Nat.pow_succ, Nat.mul_comm (256 ^ k) 256, Nat.mod_mul]
    simp

theorem ofLeBytes_lt (bs : List UInt8) : ofLeBytes bs < 256 ^ bs.length := by
  induction bs with
  | nil => simp [ofLeBytes]
  | cons b bs ih =>
    have := b.toNat_lt
    simp only [ofLeBytes, List.length_cons, Nat.pow_succ]
    omega

theorem int32?_isSome {v : Int} : (int32? v).isSome ↔ -2 ^ 31 ≤ v ∧ v < 2 ^ 31 := by
  unfold int32?
  split <;> simp_all

end MachineCode
