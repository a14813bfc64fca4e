import MachineCode.Proofs.Decoding.Relative
import MachineCode.Proofs.Failures.Reach
import MachineCode.Proofs.Records.Claims

/-! Fields that installation fills in. They lie in the instructions that they are recorded for, and
so an action that is not about labels does not fail because of what has been written. -/
namespace MachineCode

open X64 Lower SideTables

variable {α β : Type}

/-- The step does not fail because of what has been written. -/
def Sober (x : Lower α) : Prop := ∀ d err d', x d = .error err d' → err.isInternal = false

/-! ### Rules -/

section

variable {x : Lower α}

theorem sober_of_ok {f : Draft → α × Draft} (hx : ∀ d, x d = .ok (f d).1 (f d).2) : Sober x := by
  intro d err d' hrun
  rw [hx] at hrun
  cases hrun

theorem Sober.bind {f : α → Lower β} (hx : Sober x) (hf : ∀ a, Sober (f a)) : Sober (x >>= f) := by
  intro d err d' hrun
  obtain hx' | ⟨a, d₁, -, hf'⟩ := Step.bind_eq_error.mp hrun
  · exact hx d err d' hx'
  · exact hf a d₁ err d' hf'

theorem Sober.discard (hx : Sober x) : Sober (discard x) :=
  fun d err d' hrun => hx d err d' (Step.discard_eq_error.mp hrun)

theorem sober_pure (a : α) : Sober (pure a : Lower α) :=
  sober_of_ok (f := fun d => (a, d)) fun _ => rfl

theorem sober_get : Sober get := sober_of_ok (f := fun d => (d, d)) fun _ => rfl

theorem sober_position : Sober position := sober_get.bind fun _ => sober_pure _

theorem sober_modify (f : Draft → Draft) : Sober (modify f) :=
  sober_of_ok (f := fun d => (⟨⟩, f d)) fun _ => rfl

theorem sober_onData (f : DataSection → α × DataSection) : Sober (onData f) :=
  sober_of_ok (f := fun d => ((f d.data).1, { d with data := (f d.data).2 })) fun _ => rfl

theorem sober_throw {err : Error} (h : err.isInternal = false) : Sober (throw err : Lower α) := by
  intro d err' d' hrun
  cases hrun
  exact h

theorem sober_forM {γ : Type} {xs : List γ} {f : γ → Lower Unit} (hf : ∀ a ∈ xs, Sober (f a)) :
    Sober (xs.forM f) := by
  induction xs with
  | nil => exact sober_pure ()
  | cons a xs ih => exact Sober.bind (hf a (by simp)) fun _ => ih fun b hb => hf b (by simp [hb])

theorem sober_onBuffer {y : BufferStep α}
    (hy : ∀ b err b', y b = .error err b' → err.isInternal = false) : Sober (onBuffer y) := by
  intro d err d' hrun
  unfold onBuffer at hrun
  dsimp only at hrun
  split at hrun
  · cases hrun
  · rename_i hb
    cases hrun
    exact hy _ _ _ hb

theorem sober_emitBytes (bytes : List UInt8) : Sober (emitBytes bytes) :=
  sober_onBuffer fun _ _ _ hrun => by cases hrun

theorem sober_record {x : RecordStep Unit}
    (hx : ∀ t err t', x t = .error err t' → err.isInternal = false) : Sober (record x) := by
  intro d err d' hrun
  obtain ⟨t, ht, -⟩ := error_record hrun
  exact hx d.tables err t ht

end

/-! ### Records -/

/-- A key that has been claimed is no internal failure. -/
theorem error_keyed {table : String} {pc : Nat} {err : Error} {f : SideTables → SideTables}
    {t t' : SideTables} (h : (do claim table pc; modify f : RecordStep Unit) t = .error err t') :
    err.isInternal = false := by
  rw [eq_of_error_keyed h]
  rfl

theorem sober_recordHandlers (pc : Nat) (info : DebugInfo) :
    Sober (record (SideTables.recordHandlers pc info)) := by
  refine sober_record fun t err t' h => ?_
  rw [eq_of_error_recordHandlers h]
  rfl

theorem sober_recordTrap (pc : Nat) (info : DebugInfo) : Sober (recordTrap pc info) :=
  (sober_record fun _ _ _ => error_keyed).bind fun _ => sober_recordHandlers pc info

theorem sober_recordCall (start : Nat) (target : Option CallTarget) (info : Option DebugInfo)
    (direct : Bool) : Sober (recordCall start target info direct) := by
  refine sober_position.bind fun pc => (sober_record fun _ _ _ => error_keyed).bind fun _ => ?_
  cases info with
  | none => exact sober_pure ()
  | some info => exact sober_recordHandlers pc info

theorem sober_nopAfterCall : Sober nopAfterCall := by
  refine sober_get.bind fun d => ?_
  split
  · exact sober_emitBytes _
  · exact sober_pure ()

/-! ### Instructions with fields -/

/-- The field of a data reference lies in the instruction, so that only its record can fail. -/
theorem error_emitAt {l : Location} {i : Mem → Instr} (hl : l.Valid) (hi : ∀ m, (i m).mem? = some m)
    {d d' : Draft} {err : Error} (hrun : emitAt l i d = .error err d') :
    ∃ field, err = .duplicateRecord "data reference" field := by
  unfold emitAt at hrun
  rw [Step.bind_of_ok (position_eq_ok.mpr ⟨rfl, rfl⟩), Step.modify_bind] at hrun
  dsimp only at hrun
  rw [Step.bind_of_ok (emitBytes_eq_ok.mpr rfl)] at hrun
  cases hdata : l.data with
  | none =>
    simp only [hdata] at hrun
    cases hrun
  | some offset =>
    have hmem : (i l.mem).mem? = some (.rip 0) :=
      (hi l.mem).trans (congrArg some (hl.data (by simp [hdata])))
    obtain ⟨front, back, -, hfield, -⟩ := Instr.exists_around_zero hmem
    unfold Instr.Around at hfield
    have hlength : front.length + 4 ≤ (i l.mem).encode.bytes.length := by
      simp [hfield]
    have hinside : d.buffer.position + front.length ≤
        (d.buffer.setMark.append (i l.mem).encode.bytes).position := by
      rw [CodeBuffer.position_append]
      exact Nat.add_le_add_left (by omega) _
    have hcheck : (d.buffer.setMark.append (i l.mem).encode.bytes).checkInInstruction
        (d.buffer.position + front.length) = .ok () :=
      if_pos ⟨Nat.le_add_right _ _, hinside⟩
    simp only [hdata, hfield] at hrun
    simp only [hfield] at hcheck
    rw [Step.get_bind, Step.bind_of_ok (ofExcept_eq_ok.mpr ⟨hcheck, rfl⟩),
      Step.bind_of_ok (position_eq_ok.mpr ⟨rfl, rfl⟩)] at hrun
    obtain hrecord | ⟨_, d₁, -, hrun⟩ := Step.bind_eq_error.mp hrun
    · obtain ⟨t, herror, -⟩ := error_record hrecord
      have hpatch : ¬ (d.buffer.position + front.length < d.buffer.position ∨
          (d.buffer.setMark.append
            (front ++ (leBytes 4 (0 : Int32).toUInt32.toNat ++ back))).position <
            fieldEnd (d.buffer.position + front.length)) := by
        have hend := fieldEnd_le (d.buffer.position + front.length)
        rw [CodeBuffer.position_append, show d.buffer.setMark.position = d.buffer.position from rfl]
        simp only [List.length_append, length_leBytes]
        omega
      rw [recordData_of_inside hpatch] at herror
      exact ⟨_, eq_of_error_keyed herror⟩
    · cases hrun

theorem sober_emitAt {l : Location} {i : Mem → Instr} (hl : l.Valid)
    (hi : ∀ m, (i m).mem? = some m) :
    Sober (emitAt l i) := by
  intro d err d' hrun
  obtain ⟨_, rfl⟩ := error_emitAt hl hi hrun
  rfl

/-- So does the field of another kind. -/
theorem error_emitLinked {i : Instr} {f : Nat → RecordStep Unit}
    (hi : i.linkField?.getD 0 ≤ i.encode.length) {d d' : Draft} {err : Error}
    (hrun : emitLinked i f d = .error err d') : ∃ field t t', f field t = .error err t' := by
  unfold emitLinked at hrun
  rw [Step.bind_of_ok (position_eq_ok.mpr ⟨rfl, rfl⟩), Step.modify_bind] at hrun
  dsimp only at hrun
  have hemit : emit i { d with buffer := d.buffer.setMark } =
      .ok () { d with buffer := d.buffer.setMark.append i.encode.bytes } := emitBytes_eq_ok.mpr rfl
  have hcheck : (d.buffer.setMark.append i.encode.bytes).checkInInstruction
      (d.buffer.position + i.linkField?.getD 0) = .ok () := by
    refine if_pos ⟨Nat.le_add_right _ _, ?_⟩
    rw [CodeBuffer.position_append]
    exact Nat.add_le_add_left hi _
  rw [Step.bind_of_ok hemit, Step.get_bind,
    Step.bind_of_ok (ofExcept_eq_ok.mpr ⟨hcheck, rfl⟩)] at hrun
  obtain hrecord | ⟨_, d₁, -, hrun⟩ := Step.bind_eq_error.mp hrun
  · obtain ⟨t, ht, -⟩ := error_record hrecord
    exact ⟨_, _, t, ht⟩
  · cases hrun

theorem sober_emitLinked {i : Instr} {f : Nat → RecordStep Unit}
    (hi : i.linkField?.getD 0 ≤ i.encode.length)
    (hf : ∀ field t err t', f field t = .error err t' → err.isInternal = false) :
    Sober (emitLinked i f) := by
  intro d err d' hrun
  obtain ⟨field, t, t', herror⟩ := error_emitLinked hi hrun
  exact hf field t err t' herror

/-! ### Actions -/

/-- Everything is allowed but the use of labels. -/
def Effect.unlabelled : Effect :=
  .naming (fun _ => False) (fun _ => False) (fun _ => True) fun _ => True

theorem Emission.sober {x : Emission} {e : Effect} (hx : x.Within e) : Sober x.perform := by
  cases x with
  | emit i => exact sober_emitBytes _
  | «at» l i => exact (sober_emitAt hx.1 hx.2.1).discard

theorem Trailer.sober {x : Trailer} (hx : x.Within .unlabelled) : Sober x.perform := by
  cases x with
  | none => exact sober_pure ()
  | store x => exact Emission.sober hx
  | bind l => exact hx.elim
  | refuse err => exact sober_throw (Error.isInternal_of_isRefusal hx)

/-- Without labels nothing fails because of what has been written. -/
theorem Action.sober {a : Action} (ha : a.Within .unlabelled) : Sober a.perform := by
  unfold Action.perform
  cases a with
  | instr x => exact Emission.sober ha
  | embed o dst =>
    refine sober_emitLinked ?_ fun _ _ _ _ => error_keyed
    exact Nat.sub_le _ _
  | slot o =>
    refine (sober_onData _).bind fun r => ?_
    dsimp only
    split
    · exact sober_record fun _ _ _ => error_keyed
    · exact sober_pure ()
  | constant bytes align => exact (sober_onData _).discard
  | reserve count => exact sober_onBuffer fun _ _ _ => CodeBuffer.error_reserveLabels
  | fresh n =>
    exact Sober.discard (sober_of_ok (f := fun d =>
      ((d.buffer.newLabels n).1, { d with buffer := (d.buffer.newLabels n).2 })) fun _ => rfl)
  | bind l | jump cond l | jumpShort cond l => exact ha.elim
  | pad n | raw bytes => exact sober_emitBytes _
  | table low high targets =>
    refine (sober_emitBytes _).bind fun _ =>
      (sober_position.bind fun _ => sober_emitBytes _).bind fun _ =>
      sober_position.bind fun p => (sober_forM fun l hl => (ha.2.1 l hl).elim).bind fun _ =>
      sober_record fun _ _ _ => error_keyed
  | directCall target info =>
    exact sober_position.bind fun _ =>
      (sober_emitLinked (by decide) fun _ _ _ _ => error_keyed).bind fun _ =>
      (sober_recordCall _ _ _ _).bind fun _ => sober_nopAfterCall
  | indirectCall r target info =>
    exact sober_position.bind fun _ => (sober_emitBytes _).bind fun _ =>
      (sober_recordCall _ _ _ _).bind fun _ => sober_nopAfterCall
  | safepoint info =>
    exact sober_position.bind fun _ => (sober_record fun _ _ _ => error_keyed).bind fun _ =>
      sober_emitBytes _
  | trap x after info =>
    exact sober_position.bind fun pc => (Emission.sober ha.1).bind fun _ =>
      (Trailer.sober ha.2.1).bind fun _ => sober_recordTrap pc info
  | mark id =>
    refine sober_position.bind fun _ => sober_record fun _ _ _ h => ?_
    rw [(recordMark_eq_error.mp h).2.1]
    rfl
  | enqueue | log event | report f | name op => exact sober_modify _
  | refuse err => exact sober_throw (Error.isInternal_of_isRefusal ha)

end MachineCode
