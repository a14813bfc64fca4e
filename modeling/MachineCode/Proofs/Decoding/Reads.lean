import MachineCode.Proofs.Numbers
import Mathlib.Tactic.Common
import MachineCode.X64.Decode

/-! What a reader takes from the front of the bytes. A reader that takes a list of bytes takes the
same list whatever follows it, so the fields of an instruction can be read one by one. -/
namespace MachineCode.X64.Reader

/-- The reader takes exactly `bytes` and gives `a`, whatever follows. -/
def Reads {α : Type} (r : Reader α) (bytes : List UInt8) (a : α) : Prop :=
  ∀ rest taken, r ⟨bytes ++ rest, taken⟩ = some (a, ⟨rest, taken + bytes.length⟩)

variable {α β : Type}

theorem reads_pure (a : α) : Reads (pure a) [] a := fun _ _ => rfl

theorem Reads.bind {x : Reader α} {f : α → Reader β} {u v : List UInt8} {a : α} {b : β}
    (hx : Reads x u a) (hf : Reads (f a) v b) : Reads (x >>= f) (u ++ v) b := by
  intro rest taken
  change (x ⟨u ++ v ++ rest, taken⟩).bind (fun r => f r.1 r.2) = _
  rw [List.append_assoc, hx, Option.bind_some, hf, List.length_append, Nat.add_assoc]

/-- A reader followed by one that takes no byte. -/
theorem Reads.bind_nil {x : Reader α} {f : α → Reader β} {u : List UInt8} {a : α} {b : β}
    (hx : Reads x u a) (hf : Reads (f a) [] b) : Reads (x >>= f) u b := by
  have h := hx.bind hf
  rwa [List.append_nil] at h

theorem Reads.bind_pure {x : Reader α} {f : α → β} {u : List UInt8} {a : α} (hx : Reads x u a) :
    Reads (x >>= fun a => Pure.pure (f a)) u (f a) := hx.bind_nil (reads_pure (f a))

theorem Reads.map {x : Reader α} {f : α → β} {u : List UInt8} {a : α} (hx : Reads x u a) :
    Reads (f <$> x) u (f a) := by
  rw [map_eq_pure_bind]
  exact hx.bind_pure

theorem reads_byte (b : UInt8) : Reads byte [b] b := fun _ _ => rfl

theorem Reads.byte_bind {f : UInt8 → Reader β} {b : UInt8} {u : List UInt8} {c : β}
    (hf : Reads (f b) u c) : Reads (byte >>= f) (b :: u) c := (reads_byte b).bind hf

theorem reads_number (k n : Nat) : Reads (number k) (leBytes k n) (n % 256 ^ k) := by
  induction k generalizing n with
  | zero =>
    rw [Nat.pow_zero, Nat.mod_one]
    exact reads_pure 0
  | succ k ih =>
    have hn : n % 256 ^ (k + 1) = (UInt8.ofNat n).toNat + 256 * (n / 256 % 256 ^ k) := by
      rw [Nat.pow_succ, Nat.mul_comm (256 ^ k) 256, Nat.mod_mul]
      simp
    rw [hn]
    exact Reads.byte_bind (ih (n / 256)).bind_pure

theorem reads_int8 (n : Nat) : Reads int8 (leBytes 1 n) ((n : Int).bmod (2 ^ 8)) := by
  have h : ((n : Int).bmod (2 ^ 8)) = (UInt8.ofNat n).toInt8.toInt := by
    rw [UInt8.toInt8_ofNat']
    exact Int8.toInt_ofNat'.symm
  rw [h]
  exact (reads_byte _).bind_pure

theorem reads_int16 (n : Nat) : Reads int16 (leBytes 2 n) ((n : Int).bmod (2 ^ 16)) := by
  have h : ((n : Int).bmod (2 ^ 16)) = (Int16.ofNat (n % 256 ^ 2)).toInt := by
    rw [Int16.toInt_ofNat', Int.natCast_emod]
    exact (Int.emod_bmod _ _).symm
  rw [h]
  exact (reads_number 2 n).bind_pure

theorem reads_int64 (n : Nat) :
    Reads (do return (Int64.ofNat (← number 8)).toInt) (leBytes 8 n) ((n : Int).bmod (2 ^ 64)) := by
  have h : ((n : Int).bmod (2 ^ 64)) = (Int64.ofNat (n % 256 ^ 8)).toInt := by
    rw [Int64.toInt_ofNat', Int.natCast_emod]
    exact (Int.emod_bmod _ _).symm
  rw [h]
  exact (reads_number 8 n).bind_pure

theorem reads_int32 (d : Int32) : Reads int32 (leBytes 4 d.toUInt32.toNat) d := by
  have hd : Int32.ofNat (d.toUInt32.toNat % 256 ^ 4) = d := by
    rw [Nat.mod_eq_of_lt (by have := d.toUInt32.toNat_lt; omega)]
    cases d
    simp [Int32.ofNat]
  have h : Reads int32 _ _ := (reads_number 4 d.toUInt32.toNat).bind_pure
  rwa [hd] at h

/-- The low bytes of a displacement give its value modulo their range. -/
theorem bmod_toUInt32 (d : Int32) {k : Nat} (hk : k ∣ 2 ^ 32) :
    (d.toUInt32.toNat : Int).bmod k = d.toInt.bmod k := by
  rw [← Int32.toInt_toBitVec, BitVec.toInt_eq_toNat_bmod, Int32.toNat_toBitVec,
    Int.bmod_bmod_of_dvd hk]

/-- A displacement in the range of a byte is read back from its low byte. -/
theorem bmod_of_byte {d : Int32} (h : -128 ≤ d ∧ d ≤ 127) :
    (d.toUInt32.toNat : Int).bmod (2 ^ 8) = d.toInt := by
  have hlow : (-128 : Int32).toInt ≤ d.toInt := Int32.le_iff_toInt_le.mp h.1
  have hhigh : d.toInt ≤ (127 : Int32).toInt := Int32.le_iff_toInt_le.mp h.2
  have h1 : (-128 : Int32).toInt = -128 := by decide
  have h2 : (127 : Int32).toInt = 127 := by decide
  rw [bmod_toUInt32 d (by decide)]
  exact Int.bmod_eq_of_le (by omega) (by omega)

end MachineCode.X64.Reader
