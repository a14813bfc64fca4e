import MachineCode.Error

/-! Signed displacements in the 8-bit and 32-bit fields of an instruction. A number has a field
value exactly when it lies in the field's range, and the field then reads back as the number. -/
namespace MachineCode

/-- A displacement as the 32-bit field of an instruction. -/
def int32? (v : Int) : Option Int32 :=
  if -0x80000000 ≤ v ∧ v < 0x80000000 then some (Int32.ofInt v) else none

/-- A displacement as an 8-bit field. -/
def int8? (v : Int) : Option Int8 :=
  if -0x80 ≤ v ∧ v < 0x80 then some (Int8.ofInt v) else none

theorem toInt_of_int32? {v : Int} {w : Int32} (h : int32? v = some w) : w.toInt = v := by
  unfold int32? at h
  split at h
  · rename_i hv
    cases h
    exact Int32.toInt_ofInt_of_le (by omega) (by omega)
  · simp at h

theorem int32?_toInt (w : Int32) : int32? w.toInt = some w := by
  have := w.le_toInt
  have := w.toInt_lt
  simp only [int32?, Int32.ofInt_toInt]
  rw [if_pos ⟨by omega, by omega⟩]

/-- `none` where the displacement does not fit. -/
def displacement32 (v : Int) : Except Error Int32 :=
  match int32? v with
  | some w => .ok w
  | none => .error (.displacementOutOfRange v)

end MachineCode
