import MachineCode.Proofs.Numbers
import MachineCode.Proofs.Steps
import MachineCode.SideTables

/-! Keys of the side tables. A record either claims a key of its own and adds what is recorded, or
it is refused and leaves the tables as they are. Every key that is claimed is the key of a row. -/
namespace MachineCode

/-- The table that a field of this kind is recorded under. -/
def RelocationKind.table : RelocationKind → String
  | .object _ => "embedded object"
  | .call _ => "call target"
  | .data .. => "data reference"

theorem RelocationKind.table_ne (kind : RelocationKind) {table : String}
    (h : table ∉ ["embedded object", "call target", "data reference"]) : kind.table ≠ table := by
  rintro rfl
  exact h (by cases kind <;> simp [RelocationKind.table])

namespace SideTables

variable {table : String} {pc : Nat} {t t' : SideTables} {err : Error} {f : SideTables → SideTables}

/-! ### Refusals -/

section

variable {p : SideTables → Prop} [DecidablePred p]

/-- A step that is refused where `p` holds makes its change elsewhere. -/
theorem refusing_eq_ok :
    (do if p (← get) then throw err else modify f : RecordStep Unit) t = .ok () t' ↔
      ¬ p t ∧ t' = f t := by
  rw [Step.get_bind]
  by_cases h : p t
  · rw [if_pos h]
    exact iff_of_false Step.throw_ne_ok fun hnot => hnot.1 h
  · rw [if_neg h, Step.modify_eq_ok, and_iff_right h]
    exact eq_comm

/-- A step that is refused where `p` holds changes nothing there. -/
theorem refusing_eq_error {err' : Error} :
    (do if p (← get) then throw err else modify f : RecordStep Unit) t = .error err' t' ↔
      p t ∧ err' = err ∧ t' = t := by
  rw [Step.get_bind]
  by_cases h : p t
  · rw [if_pos h, and_iff_right h]
    constructor
    · intro hthrow
      cases hthrow
      exact ⟨rfl, rfl⟩
    · rintro ⟨rfl, rfl⟩
      rfl
  · rw [if_neg h]
    exact iff_of_false nofun fun hp => h hp.1

end

/-! ### Records under a key -/

theorem claim_eq_ok : claim table pc t = .ok () t' ↔
    (table, pc) ∉ t.seen ∧ t' = { t with seen := (table, pc) :: t.seen } :=
  refusing_eq_ok

theorem claim_eq_error : claim table pc t = .error err t' ↔
    (table, pc) ∈ t.seen ∧ err = .duplicateRecord table pc ∧ t' = t :=
  refusing_eq_error

/-- What is recorded under a new key is added. -/
theorem keyed_eq_ok : (do claim table pc; modify f : RecordStep Unit) t = .ok () t' ↔
    (table, pc) ∉ t.seen ∧ t' = f { t with seen := (table, pc) :: t.seen } := by
  rw [Step.bind_eq_ok]
  constructor
  · rintro ⟨_, t₁, h₁, h⟩
    obtain ⟨hnew, rfl⟩ := claim_eq_ok.mp h₁
    exact ⟨hnew, (Step.modify_eq_ok.mp h).symm⟩
  · rintro ⟨hnew, rfl⟩
    exact ⟨(), _, claim_eq_ok.mpr ⟨hnew, rfl⟩, rfl⟩

/-- A key that has been claimed is refused, and nothing changes. -/
theorem keyed_eq_error : (do claim table pc; modify f : RecordStep Unit) t = .error err t' ↔
    (table, pc) ∈ t.seen ∧ err = .duplicateRecord table pc ∧ t' = t := by
  rw [Step.bind_eq_error, ← claim_eq_error]
  exact or_iff_left fun ⟨_, _, _, h⟩ => nomatch h

theorem eq_of_keyed (h : (do claim table pc; modify f : RecordStep Unit) t = .ok () t') :
    t' = f { t with seen := (table, pc) :: t.seen } :=
  (keyed_eq_ok.mp h).2

theorem eq_of_error_keyed (h : (do claim table pc; modify f : RecordStep Unit) t = .error err t') :
    err = .duplicateRecord table pc :=
  (keyed_eq_error.mp h).2.1

/-- Whether it is accepted or not, a record leaves the tables as they are or as it makes them. -/
theorem final_keyed (table : String) (pc : Nat) (f : SideTables → SideTables) (t : SideTables) :
    Step.final (do claim table pc; modify f : RecordStep Unit) t = t ∨
      Step.final (do claim table pc; modify f : RecordStep Unit) t =
        f { t with seen := (table, pc) :: t.seen } := by
  cases h : (do claim table pc; modify f : RecordStep Unit) t with
  | ok u t' => exact .inr ((Step.final_of_ok h).trans (eq_of_keyed h))
  | error e t' => exact .inl ((Step.final_of_error h).trans (keyed_eq_error.mp h).2.2)

/-! ### Exception edges -/

theorem recordHandlers_nil {info : DebugInfo} (h : info.edges = []) :
    recordHandlers pc info = pure () := by
  unfold recordHandlers
  rw [if_pos (by simpa using h)]

theorem recordHandlers_eq {info : DebugInfo} (h : info.edges ≠ []) :
    recordHandlers pc info = (do
      claim "exception handlers" pc
      modify fun t => { t with
        exceptionHandlers := t.exceptionHandlers ++ handlerRows pc info }) := by
  unfold recordHandlers
  rw [if_neg (by simpa using h)]

/-- The edges are added, and only their key may be claimed. -/
theorem recordHandlers_eq_ok {info : DebugInfo} (h : recordHandlers pc info t = .ok () t') :
    ∃ seen, t' = { t with
      exceptionHandlers := t.exceptionHandlers ++ handlerRows pc info, seen := seen } := by
  by_cases hedges : info.edges = []
  · rw [recordHandlers_nil hedges] at h
    cases h
    exact ⟨t.seen, by simp [handlerRows, hedges]⟩
  · rw [recordHandlers_eq hedges] at h
    exact ⟨_, eq_of_keyed h⟩

theorem eq_of_error_recordHandlers {info : DebugInfo}
    (h : recordHandlers pc info t = .error err t') :
    err = .duplicateRecord "exception handlers" pc := by
  by_cases hedges : info.edges = []
  · rw [recordHandlers_nil hedges] at h
    cases h
  · rw [recordHandlers_eq hedges] at h
    exact eq_of_error_keyed h

/-! ### Data references -/

/-- The end of a field is four behind its start, unless the sum wraps around. -/
theorem fieldEnd_eq {patch : Nat} (h : patch < 2 ^ 64) :
    fieldEnd patch = if patch + 4 < 2 ^ 64 then patch + 4 else patch + 4 - 2 ^ 64 := by
  have hsum : fieldEnd patch = (patch % 2 ^ 64 + 4) % 2 ^ 64 := by simp [fieldEnd]
  split <;> omega

theorem fieldEnd_le (patch : Nat) : fieldEnd patch ≤ patch + 4 := by
  have hsum : fieldEnd patch = (patch % 2 ^ 64 + 4) % 2 ^ 64 := by simp [fieldEnd]
  omega

variable {start patch stop dataOffset : Nat}

theorem recordData_of_outside (h : patch < start ∨ stop < fieldEnd patch) :
    recordData start patch stop dataOffset =
      throw (.midInstructionRelocation patch (some start)) :=
  (if_pos h).trans rfl

theorem recordData_of_inside (h : ¬ (patch < start ∨ stop < fieldEnd patch)) :
    recordData start patch stop dataOffset = (do
      claim "data reference" patch
      modify fun t => { t with
        relocations := t.relocations.push ⟨patch, .data dataOffset stop⟩ }) :=
  if_neg h

theorem recordData_eq_ok (h : recordData start patch stop dataOffset t = .ok () t') :
    t' = { t with
      relocations := t.relocations.push ⟨patch, .data dataOffset stop⟩
      seen := ("data reference", patch) :: t.seen } := by
  by_cases hout : patch < start ∨ stop < fieldEnd patch
  · rw [recordData_of_outside hout] at h
    cases h
  · rw [recordData_of_inside hout] at h
    exact eq_of_keyed h

/-! ### Marks -/

theorem recordMark_eq_ok {id : UInt32} : recordMark pc id t = .ok () t' ↔
    ⟨pc, id⟩ ∉ t.marks ∧ t' = { t with marks := t.marks.push ⟨pc, id⟩ } :=
  refusing_eq_ok

theorem recordMark_eq_error {id : UInt32} : recordMark pc id t = .error err t' ↔
    ⟨pc, id⟩ ∈ t.marks ∧ err = .duplicateRecord "mark" pc ∧ t' = t :=
  refusing_eq_error

/-! ### Claimed keys and rows -/

/-- The keys of all rows. The exception edges of a position share one, and marks have none. -/
def keys (t : SideTables) : List (String × Nat) :=
  t.relocations.toList.map (fun x => (x.kind.table, x.offset)) ++
    t.dataObjects.toList.map (fun x => ("data object", x.dataOffset)) ++
    t.callSites.toList.map (fun x => ("call site", x.pc)) ++
    t.safepoints.toList.map (fun x => ("safepoint", x.pc)) ++
    t.implicitExceptions.toList.map (fun x => ("implicit exception", x.pc)) ++
    t.exceptionHandlers.toList.map (fun x => ("exception handlers", x.pc)) ++
    t.jumpTables.toList.map (fun x => ("jump table", x.position))

/-- The keys that have been claimed are those of the rows. -/
def Linked (t : SideTables) : Prop := ∀ key, key ∈ t.seen ↔ key ∈ t.keys

theorem linked_empty : empty.Linked := fun _ => Iff.rfl

/-- A row is added, and the key of it is claimed. -/
theorem Linked.claim {key : String × Nat} (h : t.Linked) (hseen : t'.seen = key :: t.seen)
    (hkeys : ∀ k, k ∈ t'.keys ↔ k = key ∨ k ∈ t.keys) : t'.Linked := by
  intro k
  rw [hseen, List.mem_cons, hkeys, h]

section

variable (h : t.Linked)

include h

theorem Linked.push_relocation (x : Relocation) : Linked { t with
    relocations := t.relocations.push x, seen := (x.kind.table, x.offset) :: t.seen } :=
  h.claim rfl fun k => by grind [keys]

theorem Linked.push_dataObject (x : DataObject) : Linked { t with
    dataObjects := t.dataObjects.push x, seen := ("data object", x.dataOffset) :: t.seen } :=
  h.claim rfl fun k => by grind [keys]

theorem Linked.push_callSite (x : CallSite) : Linked { t with
    callSites := t.callSites.push x, seen := ("call site", x.pc) :: t.seen } :=
  h.claim rfl fun k => by grind [keys]

theorem Linked.push_safepoint (x : Safepoint) : Linked { t with
    safepoints := t.safepoints.push x, seen := ("safepoint", x.pc) :: t.seen } :=
  h.claim rfl fun k => by grind [keys]

theorem Linked.push_trap (x : ImplicitException) : Linked { t with
    implicitExceptions := t.implicitExceptions.push x
    seen := ("implicit exception", x.pc) :: t.seen } :=
  h.claim rfl fun k => by grind [keys]

theorem Linked.append_handlers {info : DebugInfo} (hedges : info.edges ≠ []) (pc : Nat) :
    Linked { t with
      exceptionHandlers := t.exceptionHandlers ++ handlerRows pc info
      seen := ("exception handlers", pc) :: t.seen } := by
  obtain ⟨edge, edges, hedges⟩ := List.exists_cons_of_ne_nil hedges
  exact h.claim rfl fun k => by grind [keys, handlerRows]

theorem Linked.push_jumpTable (x : JumpTable) : Linked { t with
    jumpTables := t.jumpTables.push x, seen := ("jump table", x.position) :: t.seen } :=
  h.claim rfl fun k => by grind [keys]

/-! A key that has been claimed is that of a row. -/

theorem Linked.exists_relocation (kind : RelocationKind) (hseen : (kind.table, pc) ∈ t.seen) :
    ∃ x ∈ t.relocations, x.kind.table = kind.table ∧ x.offset = pc := by
  have hkey := (h _).mp hseen
  cases kind <;> simpa [keys, RelocationKind.table] using hkey

theorem Linked.exists_dataObject (hseen : ("data object", pc) ∈ t.seen) :
    ∃ x ∈ t.dataObjects, x.dataOffset = pc := by
  simpa [keys, RelocationKind.table_ne] using (h _).mp hseen

theorem Linked.exists_callSite (hseen : ("call site", pc) ∈ t.seen) :
    ∃ x ∈ t.callSites, x.pc = pc := by
  simpa [keys, RelocationKind.table_ne] using (h _).mp hseen

theorem Linked.exists_safepoint (hseen : ("safepoint", pc) ∈ t.seen) :
    ∃ x ∈ t.safepoints, x.pc = pc := by
  simpa [keys, RelocationKind.table_ne] using (h _).mp hseen

theorem Linked.exists_implicitException (hseen : ("implicit exception", pc) ∈ t.seen) :
    ∃ x ∈ t.implicitExceptions, x.pc = pc := by
  simpa [keys, RelocationKind.table_ne] using (h _).mp hseen

theorem Linked.exists_handler (hseen : ("exception handlers", pc) ∈ t.seen) :
    ∃ x ∈ t.exceptionHandlers, x.pc = pc := by
  simpa [keys, RelocationKind.table_ne] using (h _).mp hseen

theorem Linked.exists_jumpTable (hseen : ("jump table", pc) ∈ t.seen) :
    ∃ x ∈ t.jumpTables, x.position = pc := by
  simpa [keys, RelocationKind.table_ne] using (h _).mp hseen

end

end SideTables

end MachineCode
