import MachineCode.Lowering.Templates
import MachineCode.Proofs.Effects.Lowers

/-! The effects of the primitive steps of lowering: instructions, labels, branches, padding and
operands. -/
namespace MachineCode.Lower

open X64

variable {α : Type} {C : Context} {e : Effect} {l : Location}

/-! ### Emissions -/

/-- An instruction without a memory operand. -/
theorem does_plain {i : Instr} {f : Footprint} (hi : i.mem? = none) (hf : i.footprint = f)
    (h : e.Admits f .plain) : Does C e (emit i) :=
  does_action (.instr (.emit i)) ⟨Instr.encodable_of_none hi, hf ▸ h⟩ rfl

/-- An instruction whose memory operand is known. -/
theorem does_memory {i : Instr} {m : Mem} {f : Footprint} (hi : i.mem? = some m) (hm : m.Encodable)
    (hf : i.footprint = f) (h : e.Admits f .plain) : Does C e (emit i) :=
  does_action (.instr (.emit i)) ⟨Instr.encodable_of_some hi hm, hf ▸ h⟩ rfl

theorem within_at {i : Mem → Instr} {f : Footprint} (hl : l.Valid) (hi : ∀ m, (i m).mem? = some m)
    (hf : (i l.mem).footprint = f) (h : e.Admits f fun _ => l) : (Emission.at l i).Within e :=
  ⟨hl, hi, hf ▸ h⟩

theorem closes_at {e' : Effect} {i : Mem → Instr} {f : Footprint} (hl : l.Valid)
    (hi : ∀ m, (i m).mem? = some m) (hf : (i l.mem).footprint = f) (h : e'.Admits f fun _ => l) :
    Closes C e e' (emitAt l i) :=
  closes_emitAt (within_at hl hi hf h)

theorem accesses_at {i : Mem → Instr} {f : Footprint} (hl : l.Valid) (hi : ∀ m, (i m).mem? = some m)
    (hf : (i l.mem).footprint = f) (h : e.Admits f fun _ => l) : Accesses C e (emitAt l i) :=
  (closes_at hl hi hf h).accesses

theorem does_at {i : Mem → Instr} {f : Footprint} (hl : l.Valid) (hi : ∀ m, (i m).mem? = some m)
    (hf : (i l.mem).footprint = f) (h : e.Admits f fun _ => l) : Does C e (discard (emitAt l i)) :=
  (accesses_at hl hi hf h).does

theorem lowers_unhandled {p : α → Prop} (detail : String) : Lowers C e (unhandled detail) p :=
  lowers_of_fails (fails_unhandled detail)

theorem closes_unhandled {e' : Effect} (detail : String) : Closes C e e' (unhandled detail) :=
  closes_of_fails (fails_unhandled detail)

theorem accesses_unhandled (detail : String) : Accesses C e (unhandled detail) :=
  accesses_of_fails (fails_unhandled detail)

/-! ### Labels, branches and padding -/

/-- A new label has a number that no label has yet. -/
theorem lowers_newLabel : Lowers C e newLabel fun l => C.labels ≤ l.index := by
  refine lowers_action (.fresh 1) trivial fun d hd => ⟨?_, fun l d' hrun => ?_⟩
  · have hb : d.buffer.newLabel.2 = (d.buffer.newLabels 1).2 := rfl
    change EStateM.Result.ok () { d with buffer := d.buffer.newLabel.2 } = _
    rw [hb]
    rfl
  · cases hrun
    exact hd.labels

theorem lowers_newLabels (n : Nat) :
    Lowers C e (newLabels n) fun ls => ∀ l ∈ ls, C.labels ≤ l.index := by
  refine lowers_action (.fresh n) trivial fun d hd => ⟨rfl, fun ls d' hrun => ?_⟩
  cases hrun
  intro l hl
  obtain ⟨k, hk, rfl⟩ := List.mem_map.mp hl
  exact Nat.le_trans hd.labels (List.mem_range'_1.mp hk).1

theorem does_bind {l : Label} (h : e.binds l) : Does C e (bind l) := does_action (.bind l) h rfl

theorem does_jmp {l : Label} (h : e.refers l) : Does C e (jmp l) := does_action (.jump none l) h rfl

theorem does_jcc {cond : Cond} {l : Label} (h : e.refers l) : Does C e (jcc cond l) :=
  does_action (.jump (some cond) l) h rfl

theorem does_jccShort {cond : Cond} {l : Label} (h : e.refers l) : Does C e (jccShort cond l) :=
  does_action (.jumpShort cond l) h rfl

theorem does_nops (n : Nat) : Does C e (emitBytes (nops n)) := does_action (.pad n) trivial rfl

theorem finds_position : Finds C position fun _ => True := fun _ _ => .inl ⟨_, rfl, trivial⟩

theorem does_padding (position align : Nat) : Does C e (emitBytes (padding position align)) := by
  unfold padding
  split
  · exact does_nops _
  · exact does_nops 0

theorem does_emitAlign (align : Nat) : Does C e (emitAlign align) :=
  finds_position.lowers.andThen fun p => does_padding p align

theorem does_log (event : Event) : Does C e (log event) := does_action (.log event) trivial rfl

/-- A run of one-byte padding is as long a sequence of padding. -/
theorem does_replicate (count : Nat) : Does C e (emitBytes (List.replicate count 0x90)) := by
  induction count with
  | zero => exact does_nops 0
  | succ count ih =>
    have hcons : emitBytes (List.replicate (count + 1) 0x90) = (do
        emitBytes (nops 1)
        emitBytes (List.replicate count 0x90)) := by
      funext d
      rw [Step.bind_of_ok (emitBytes_eq_ok.mpr rfl), emitBytes_eq_ok.mpr rfl,
        emitBytes_eq_ok.mpr rfl, List.replicate_succ]
      simp [CodeBuffer.append, nops, X64.nop]
    rw [hcons]
    exact (does_nops 1).andThen fun _ => ih

/-! ### Operands -/

/-- The place of a frame slot or an address in a method with this frame. -/
def place? (frame : Frame) : Operand → Option Location
  | .stack slot _ => (int32? (frame.slotOffset slot)).map fun disp => .plain (.based .rsp disp)
  | .addr ⟨_, .register base, none, _, disp⟩ =>
    (Gpr.ofRegister? base).map fun base => .plain (.based base disp)
  | .addr ⟨_, .register base, some index, scale, disp⟩ => do
    let base ← Gpr.ofRegister? base
    let index ← (Gpr.ofRegister? index).filter (· != .rsp)
    return .plain (.indexed base index scale.log2 disp)
  | .addr ⟨_, .data start, _, _, disp⟩ => some (.ofData (start + disp.toInt).toNat)
  | _ => none

/-- Outside of the data section, a place is given by registers. -/
theorem place?_plain {frame : Frame} {o : Operand} (hdata : inData o = false)
    (h : place? frame o = some l) : ∃ m, l = .plain m ∧ m.isRip = false := by
  cases o with
  | reg | const => cases h
  | stack slot kind =>
    simp only [place?, Option.map_eq_some_iff] at h
    obtain ⟨disp, -, rfl⟩ := h
    exact ⟨_, rfl, rfl⟩
  | addr a =>
    obtain ⟨kind, base, index, scale, disp⟩ := a
    cases base with
    | data start => cases hdata
    | register base =>
      cases index with
      | none =>
        simp only [place?, Option.map_eq_some_iff] at h
        obtain ⟨base, -, rfl⟩ := h
        exact ⟨_, rfl, rfl⟩
      | some index =>
        simp only [place?, Option.bind_eq_bind, Option.bind_eq_some_iff] at h
        obtain ⟨base, -, index, -, ⟨⟩⟩ := h
        exact ⟨_, rfl, rfl⟩

theorem finds_gpr (o : Operand) : Finds C (gpr o) fun g => gpr? o = some g := by
  unfold gpr
  split
  · split
    · exact finds_pure (by assumption)
    · exact finds_unhandled _
  · exact finds_unhandled _

/-- The floating-point register of an operand, if it is one. -/
def xmm? : Operand → Option Xmm
  | .reg r _ => Xmm.ofRegister? r
  | _ => none

theorem finds_xmm (o : Operand) : Finds C (xmm o) fun x => xmm? o = some x := by
  unfold xmm
  split
  · split
    · exact finds_pure (by assumption)
    · exact finds_unhandled _
  · exact finds_unhandled _

theorem encodable_based (base : Gpr) (disp : Int32) : (Mem.based base disp).Encodable := by
  simp [Mem.based, Mem.Encodable]

theorem encodable_indexed {base index : Gpr} {shift : Fin 4} {disp : Int32} (h : index ≠ .rsp) :
    (Mem.indexed base index shift disp).Encodable := by
  simp [Mem.indexed, Mem.Encodable, h]

theorem encodable_rip (disp : Int32) : (Mem.rip disp).Encodable := by
  simp [Mem.rip, Mem.Encodable]

theorem valid_plain {m : Mem} (h : m.Encodable) : (Location.plain m).Valid :=
  ⟨h, by simp [Location.plain]⟩

theorem valid_ofData (offset : Nat) : (Location.ofData offset).Valid :=
  ⟨encodable_rip 0, fun _ => rfl⟩

theorem displacement32_eq_ok {v : Int} {d : Int32} (h : displacement32 v = .ok d) :
    int32? v = some d := by
  unfold displacement32 at h
  split at h
  · cases h
    assumption
  · cases h

theorem finds_displacement32 (v : Int) :
    Finds C (ofExcept (displacement32 v)) fun disp => int32? v = some disp :=
  finds_ofExcept (fun _ => displacement32_eq_ok) fun _ => CodeBuffer.error_displacement32

theorem finds_stackMem (offset : Nat) :
    Finds C (stackMem offset) fun m => ∃ disp, int32? offset = some disp ∧ m = .based .rsp disp :=
  (finds_displacement32 offset).bind fun disp hdisp => finds_pure ⟨disp, hdisp, rfl⟩

/-- The place of an address is encodable. -/
theorem finds_address (a : Address) (frame : Frame) :
    Finds C (address a) fun l => place? frame (.addr a) = some l ∧ l.Valid := by
  obtain ⟨kind, base, index, scale, disp⟩ := a
  unfold address
  cases base with
  | register base =>
    dsimp only
    cases hbase : Gpr.ofRegister? base with
    | none => exact finds_unhandled _
    | some base =>
      cases index with
      | none =>
        exact finds_pure ⟨by simp [place?, hbase], valid_plain (encodable_based base disp)⟩
      | some index =>
        dsimp only
        cases hindex : (Gpr.ofRegister? index).filter (· != .rsp) with
        | none => exact finds_unhandled _
        | some index =>
          have hrsp : index ≠ .rsp := by
            simpa using (Option.filter_eq_some_iff.mp hindex).2
          exact finds_pure ⟨by simp [place?, hbase, hindex], valid_plain (encodable_indexed hrsp)⟩
  | data start =>
    dsimp only
    split
    · exact finds_unhandled _
    · refine finds_get.bind fun d _ => ?_
      split
      · exact finds_throw rfl
      · split
        · exact finds_throw rfl
        · exact finds_pure ⟨rfl, valid_ofData _⟩

theorem finds_location (o : Operand) :
    Finds C (location o) fun l => place? C.frame o = some l ∧ l.Valid := by
  unfold location
  split
  · refine finds_get.bind fun d hd => (finds_stackMem _).bind fun m hm => ?_
    obtain ⟨disp, hdisp, rfl⟩ := hm
    rw [hd.frame] at hdisp
    exact finds_pure ⟨by simp [place?, hdisp], valid_plain (encodable_based _ disp)⟩
  · exact finds_address _ _
  · exact finds_unhandled _

end MachineCode.Lower
