import MachineCode.Proofs.Execution.Values
import MachineCode.Proofs.Failures.Attempts

/-! Moves that are lowered. The fields of their code have keys that the tables do not have yet, so
that a move fails for its operands only: one has no code, or one is out of range. -/
namespace MachineCode

open X64 Lower SideTables

variable {α β : Type}

/-- There is no such lowering. -/
def Error.isUnhandled : Error → Bool
  | .unhandled .. => true
  | _ => false

/-- An operand is out of range. -/
def Error.isOutOfRange : Error → Bool
  | .displacementOutOfRange _ | .dataOutOfRange .. => true
  | _ => false

theorem Error.isUnhandled_of_isOutOfRange {err : Error}
    (h : err.isOutOfRange = true) : err.isUnhandled = false := by
  cases err <;> first | rfl | cases h

theorem Error.exists_of_isUnhandled {err : Error} (h : err.isUnhandled = true) :
    ∃ name detail, err = .unhandled name detail := by
  cases err <;> first | exact ⟨_, _, rfl⟩ | cases h

/-! ### Drafts that go on -/

/-- Since `base`, code and data have been added, and nothing has been recorded but fields. -/
structure Prolongs (C : Context) (base : Draft) (nop : Bool) (d : Draft) : Prop where
  holds : C.Holds d
  recorded : Recorded base nop base.buffer.position d
  data : base.data.size ≤ d.data.size

theorem Triple.relax {p : Draft → Prop} {x : Lower α} {q : α → Draft → Prop}
    {r r' : Error → Draft → Prop} (hx : Triple p x q r)
    (hr : ∀ err d, r err d → r' err d) : Triple p x q r' :=
  fun d hd => ⟨(hx d hd).1, fun err d' hrun => hr err d' ((hx d hd).2 err d' hrun)⟩

/-- A step, and another one where the first has found something. -/
theorem Triple.seq {p q : Draft → Prop} {F : α → Prop} {x : Lower α} {f : α → Lower β}
    {s : β → Draft → Prop} {r : Error → Draft → Prop} (hx : Triple p x (fun a d => q d ∧ F a) r)
    (hf : ∀ a, F a → Triple q (f a) s r) :
    Triple p (x >>= f) s r :=
  hx.bind fun a d hd => hf a hd.2 d hd.1

section

variable {C : Context} {base : Draft} {nop : Bool} {P : Prop}

/-- The step is not refused, and it does not fail at all where `P` holds. -/
abbrev Proceeds (C : Context) (base : Draft) (nop : Bool) (P : Prop) (x : Lower α)
    (q : α → Draft → Prop) : Prop :=
  Triple (Prolongs C base nop) x q fun err _ => err.isUnhandled = false ∧ ¬ P

/-- The same, with a result that is not in front of the base. -/
abbrev Locates (C : Context) (base : Draft) (nop : Bool) (P : Prop) (x : Lower Nat) : Prop :=
  Proceeds C base nop P x fun pc d => Prolongs C base nop d ∧ base.buffer.position ≤ pc

/-- A step that records no more than fields, and fails for their records only. -/
theorem proceeds_of_safe {x : Lower α}
    (hsafe : Safe (Recorded base nop base.buffer.position) x fun _ =>
      Recorded base nop base.buffer.position)
    (hkeeps : Keeps x) (hdata : ∀ d a d', x d = .ok a d' → d.data.size ≤ d'.data.size)
    (herror : ∀ d err d', x d = .error err d' →
      ∃ table key, err = .duplicateRecord table key ∧ table ≠ "exception handlers") :
    Proceeds C base nop P x fun _ => Prolongs C base nop := by
  refine fun d hd => ⟨fun a d' hrun => ?_, fun err d' hrun => ?_⟩
  · exact ⟨(hkeeps C d a d' hd.holds hrun).1, (hsafe d hd.recorded).1 a d' hrun,
      Nat.le_trans hd.data (hdata d a d' hrun)⟩
  · obtain ⟨table, key, rfl, hne⟩ := herror d err d' hrun
    exact (hne ((hsafe d hd.recorded).2 _ d' hrun table key rfl).1).elim

theorem proceeds_emit (i : Instr) : Proceeds C base nop P (emit i) fun _ => Prolongs C base nop :=
  proceeds_of_safe (safe_emitBytes _) (keeps_emitBytes _)
    (fun _ _ _ hrun => by cases emitBytes_eq_ok.mp hrun; exact Nat.le_refl _)
    fun _ _ _ hrun => by cases hrun

theorem locates_emitAt {l : Location} {i : Mem → Instr} (hl : l.Valid)
    (hi : ∀ m, (i m).mem? = some m) :
    Locates C base nop P (emitAt l i) := by
  refine (proceeds_of_safe (safe_emitAt hl hi) (keeps_emitAt l i) (fun d pc d' hrun => ?_)
    fun d err d' hrun => ?_).also
    fun d pc d' hd hrun => ?_
  · obtain ⟨-, t, rfl, -⟩ := emitAt_eq_ok hrun
    exact Nat.le_refl _
  · obtain ⟨field, rfl⟩ := error_emitAt hl hi hrun
    exact ⟨_, field, rfl, by decide⟩
  · obtain ⟨rfl, -⟩ := emitAt_eq_ok hrun
    exact hd.recorded.le

theorem Locates.proceeds {x : Lower Nat} (h : Locates C base nop P x) :
    Proceeds C base nop P (discard x) fun _ => Prolongs C base nop :=
  Triple.discard (h.weaken (fun _ => id) fun _ _ h => h.1)

/-- An instruction, with its offset taken in front of it. -/
theorem locates_emit (i : Instr) :
    Locates C base nop P (position >>= fun pc => emit i >>= fun _ => pure pc) := by
  have hemit : Proceeds C base nop P (emit i) _ := proceeds_emit i
  refine triple_position.bind fun pc =>
    Triple.bind (q := fun _ d => Prolongs C base nop d ∧ base.buffer.position ≤ pc)
    (fun d hd => ?_) fun _ => triple_pure fun _ => id
  obtain ⟨hd, rfl⟩ := hd
  exact ⟨fun _ d' hrun => ⟨(hemit d hd).1 () d' hrun, hd.recorded.le⟩, (hemit d hd).2⟩

/-! ### Constants -/

theorem proceeds_embed (o : ObjectId) (dst : Gpr) :
    Proceeds C base nop P (emitLinked (.movAbs dst unresolvedObject) fun field =>
      SideTables.recordObject field o) fun _ => Prolongs C base nop := by
  refine proceeds_of_safe (safe_embed o dst) (keeps_emitLinked _ _) (fun d _ d' hrun => ?_)
    fun d err d' hrun => ?_
  · obtain ⟨t, -, rfl⟩ := emitLinked_eq_ok hrun
    exact Nat.le_refl _
  · obtain ⟨field, t, t', herror⟩ := error_emitLinked (Nat.sub_le _ _) hrun
    exact ⟨_, _, eq_of_error_keyed herror, by decide⟩

/-- A slot for an object, and a load from it. -/
theorem proceeds_slot {o : ObjectId} {f : Nat → Lower β} {q : β → Draft → Prop}
    (hf : ∀ offset, Proceeds C base nop P (f offset) q) : Proceeds C base nop P (do
      let (offset, fresh) ← onData (·.objectSlot o)
      if fresh then record (SideTables.recordDataObject offset o)
      f offset) q := by
  refine Triple.bind (q := fun r d => C.Holds d ∧ Slotted base nop base.buffer.position o r d ∧
    base.data.size ≤ d.data.size)
    (fun d hd => ⟨fun r d' hrun => ?_, fun err d' hrun => by cases hrun⟩) ?_
  · cases hrun
    exact ⟨⟨hd.holds.frame, hd.holds.target, hd.holds.labels, hd.holds.mark⟩,
      ⟨d, hd.recorded, rfl, rfl⟩, Nat.le_trans hd.data (d.data.objectSlot_bounds o).1⟩
  · rintro ⟨offset, fresh⟩
    cases fresh with
    | false => exact (hf offset).weaken (fun d hd => ⟨hd.1, hd.2.1.recorded, hd.2.2⟩) fun _ _ => id
    | true =>
      refine Triple.bind (q := fun _ => Prolongs C base nop) (fun d hd => ?_) fun _ => hf offset
      obtain ⟨hok, herror⟩ := safe_recordSlot d hd.2.1
      refine ⟨fun _ d' hrun => ⟨(keeps_record _ C d () d' hd.1 hrun).1, hok () d' hrun, ?_⟩,
        fun err d' hrun => ?_⟩
      · obtain ⟨t, -, rfl⟩ := record_eq_ok.mp hrun
        exact hd.2.2
      · obtain ⟨t, ht, -⟩ := error_record hrun
        obtain rfl := eq_of_error_keyed ht
        exact absurd (herror _ d' hrun _ _ rfl).1 (by decide)

theorem proceeds_objectToRegister (o : ObjectId) (dst : Gpr) :
    Proceeds C base nop P (objectToRegister o dst) fun _ => Prolongs C base nop := by
  refine triple_get.bind fun d =>
    Triple.weaken (p := Prolongs C base nop) ?_ (fun _ h => h.1) fun _ _ => id
  split
  · exact proceeds_embed o dst
  · exact proceeds_slot fun offset => (locates_emitAt (valid_ofData offset) fun _ => rfl).proceeds

/-- Every constant can be put into a general register. -/
theorem proceeds_constantToRegister (c : Constant) (g : Gpr) (keepFlags : Bool) :
    Proceeds C base nop P (constantToRegister c g.register keepFlags) fun _ =>
      Prolongs C base nop := by
  have hxmm : Xmm.ofRegister? g.register = none := rfl
  unfold constantToRegister
  rw [Gpr.ofRegister?_register, hxmm]
  dsimp only
  split
  · exact proceeds_objectToRegister _ g
  · split
    · exact proceeds_emit _
    · split <;> exact proceeds_emit _

/-! ### Registers and memory -/

theorem locates_loadGpr {kind : Kind} {dst : Gpr} {l : Location} (hl : l.Valid) :
    Locates C base nop P (loadGpr kind dst l) :=
  locates_emitAt hl (mem?_loadInstr kind dst)

theorem locates_storeGpr {kind : Kind} {src : Gpr} {l : Location} (hl : l.Valid) :
    Locates C base nop P (storeGpr kind src l) :=
  locates_emitAt hl (mem?_storeInstr kind src)

theorem locates_constantToMemory {c : Constant} {kind : Kind} {l : Location} (hl : l.Valid) :
    Locates C base nop P (constantToMemory c kind l) := by
  unfold constantToMemory
  split
  · exact (proceeds_objectToRegister _ scratch).bind fun _ => locates_storeGpr hl
  · split
    · split
      · exact locates_emitAt hl fun _ => rfl
      · exact (proceeds_emit _).bind fun _ => locates_storeGpr hl
    · exact locates_emitAt hl fun _ => rfl

end

/-! ### Operands -/

namespace Operand

/-- An address without a memory operand: its base is no general register, its index is none or the
stack pointer, or it is indexed data. -/
def Misaddressed : Operand → Prop
  | .addr ⟨_, .register base, index, _, _⟩ =>
    Gpr.ofRegister? base = none ∨ ∃ r ∈ index, Gpr.ofRegister? r = none ∨
      Gpr.ofRegister? r = some .rsp
  | .addr ⟨_, .data _, index, _, _⟩ => index.isSome = true
  | _ => False

/-- A slot is near enough to the stack pointer, and data lies in the section. -/
def InRange (frame : Frame) (size : Nat) : Operand → Prop
  | .stack slot _ => frame.slotOffset slot < 2 ^ 31
  | .addr ⟨kind, .data start, none, _, disp⟩ =>
    0 ≤ start + disp.toInt ∧ start + disp.toInt < 2 ^ 32 ∧ start + disp.toInt + kind.size ≤ size
  | _ => True

/-- No general register can receive the value. -/
def Unreadable (o : Operand) : Prop := o.isRegister = true ∧ gpr? o = none ∨ o.Misaddressed

/-- An index is a constant or a general register other than the stack pointer. -/
def Unindexable (o : Operand) : Prop := o.isConstant = false ∧ (gpr? o = none ∨ gpr? o = some .rsp)

/-- A value of the kind is not moved between the operand and memory. -/
def Unmovable : Operand → Prop
  | .reg r kind => Gpr.ofRegister? r = none ∧ (Xmm.ofRegister? r = none ∨ kind.isFloating = false)
  | o => o.Misaddressed

/-- The value goes to memory through a register: it is in memory itself, an object, or too large for
an immediate. -/
def NeedsRegister : Operand → Prop
  | .reg .. => False
  | .const c => c.kind = .object ∧ c.bits ≠ 0 ∨
    (c.kind = .long ∨ c.kind = .double) ∧ ¬ (-2 ^ 31 ≤ c.toInt64.toInt ∧ c.toInt64.toInt < 2 ^ 31)
  | .stack .. | .addr _ => True

theorem InRange.mono {frame : Frame} {size size' : Nat} {o : Operand} (h : o.InRange frame size)
    (hle : size ≤ size') :
    o.InRange frame size' := by
  cases o with
  | reg | const => exact trivial
  | stack slot kind => exact h
  | addr a =>
    obtain ⟨kind, base, index, scale, disp⟩ := a
    cases base with
    | register r => exact trivial
    | data start =>
      cases index with
      | some r => exact trivial
      | none =>
        obtain ⟨h₀, h₁, h₂⟩ := h
        exact ⟨h₀, h₁, by omega⟩

/-- What is out of range has a form that is lowered. -/
theorem Unreadable.inRange {o : Operand} (h : o.Unreadable) (frame : Frame)
    (size : Nat) : o.InRange frame size := by
  obtain ⟨hregister, -⟩ | h := h
  · cases o with
    | reg => exact trivial
    | stack | const | addr => cases hregister
  · cases o with
    | reg | const => exact trivial
    | stack => exact h.elim
    | addr a =>
      obtain ⟨kind, base, index, scale, disp⟩ := a
      cases base with
      | register r => exact trivial
      | data start =>
        cases index with
        | some r => exact trivial
        | none => cases h

theorem storeNeedsScratch_iff {o : Operand} : storeNeedsScratch o = true ↔ o.NeedsRegister := by
  cases o with
  | reg | stack | addr => simp [storeNeedsScratch, NeedsRegister]
  | const c =>
    obtain ⟨kind, bits⟩ := c
    simp only [storeNeedsScratch, needsScratch, NeedsRegister, ← int32?_isSome]
    cases kind <;> simp [Constant.isNull, Kind.isObject]

end Operand

namespace Lower

variable {o : Operand} {d : Draft}

theorem refused_location (h : o.Misaddressed) : Refused (location o) := by
  cases o with
  | reg | stack | const => exact h.elim
  | addr a =>
    obtain ⟨kind, base, index, scale, disp⟩ := a
    unfold location address
    cases base with
    | data start =>
      have hindex : index.isSome = true := h
      simp only [hindex, if_true]
      exact refused_unhandled _
    | register base =>
      cases hbase : Gpr.ofRegister? base with
      | none =>
        simp only [hbase]
        exact refused_unhandled _
      | some g =>
        obtain hnone | ⟨r, hr, hindex⟩ := h
        · cases hbase.symm.trans hnone
        · cases hr
          have hfilter : (Gpr.ofRegister? r).filter (· != .rsp) = none := by
            obtain hindex | hindex := hindex <;> rw [hindex] <;> rfl
          simp only [hbase, hfilter]
          exact refused_unhandled _

/-- A slot has a place, or it is out of range. -/
theorem stackMem_cases (offset : Nat) (d : Draft) :
    (∃ m, stackMem offset d = .ok m d ∧ m.Encodable ∧ offset < 2 ^ 31) ∨
    stackMem offset d = .error (.displacementOutOfRange offset) d ∧ ¬ offset < 2 ^ 31 := by
  have hrange : (int32? offset).isSome = true ↔ offset < 2 ^ 31 := by
    rw [int32?_isSome]
    omega
  cases hdisp : int32? offset with
  | some disp =>
    refine .inl ⟨.based .rsp disp, ?_, encodable_based _ _, hrange.mp (by rw [hdisp]; rfl)⟩
    rw [stackMem, displacement32, hdisp]
    rfl
  | none =>
    refine .inr ⟨?_, fun h => ?_⟩
    · rw [stackMem, displacement32, hdisp]
      rfl
    · have hsome := hrange.mpr h
      rw [hdisp] at hsome
      cases hsome

/-- So has an address. -/
theorem address_cases {a : Address} (ha : ¬ (Operand.addr a).Misaddressed) (d : Draft) :
    (∃ l, address a d = .ok l d ∧ l.Valid ∧ (Operand.addr a).InRange d.frame d.data.size) ∨
      ∃ err, address a d = .error err d ∧ err.isOutOfRange = true ∧
      ¬ (Operand.addr a).InRange d.frame d.data.size := by
  obtain ⟨kind, base, index, scale, disp⟩ := a
  unfold address
  cases base with
  | register base =>
    dsimp only
    cases hbase : Gpr.ofRegister? base with
    | none => exact absurd (.inl hbase) ha
    | some g =>
      cases index with
      | none => exact .inl ⟨.plain (.based g disp), rfl, valid_plain (encodable_based _ _), trivial⟩
      | some r =>
        dsimp only
        cases hindex : (Gpr.ofRegister? r).filter (· != .rsp) with
        | none =>
          refine absurd (.inr ⟨r, rfl, ?_⟩) ha
          cases hr : Gpr.ofRegister? r with
          | none => exact .inl rfl
          | some i => exact .inr (by simpa [hr] using hindex)
        | some i =>
          have hrsp : i ≠ .rsp := by simpa using (Option.filter_eq_some_iff.mp hindex).2
          exact .inl ⟨.plain (.indexed g i scale.log2 disp), rfl,
            valid_plain (encodable_indexed hrsp), trivial⟩
  | data start =>
    cases index with
    | some r => exact absurd rfl ha
    | none =>
      dsimp only [Option.isSome]
      rw [if_neg Bool.false_ne_true, Step.get_bind]
      split
      · exact .inr ⟨_, rfl, rfl, fun ⟨h₀, h₁, _⟩ => by omega⟩
      · split
        · exact .inr ⟨_, rfl, rfl, fun ⟨_, _, h₂⟩ => by omega⟩
        · exact .inl ⟨_, rfl, valid_ofData _, by omega, by omega, by omega⟩

/-- An operand in memory has a place exactly if it is in range. -/
theorem location_cases (hmemory : o.isMemory = true) (ho : ¬ o.Misaddressed) (d : Draft) :
    (∃ l, location o d = .ok l d ∧ l.Valid ∧ o.InRange d.frame d.data.size) ∨
      ∃ err, location o d = .error err d ∧ err.isOutOfRange = true ∧
      ¬ o.InRange d.frame d.data.size := by
  cases o with
  | reg | const => cases hmemory
  | stack slot kind =>
    rw [location, Step.get_bind]
    obtain ⟨m, hm, hencodable, hnear⟩ | ⟨herror, hfar⟩ := stackMem_cases (d.frame.slotOffset slot) d
    · exact .inl ⟨.plain m, Step.bind_of_ok hm, valid_plain hencodable, hnear⟩
    · exact .inr ⟨_, Step.bind_of_error herror, rfl, hfar⟩
  | addr a => exact address_cases ho d

/-- The place of an operand. -/
theorem proceeds_location {C : Context} {base : Draft} {nop : Bool} (hmemory : o.isMemory = true)
    (ho : ¬ o.Misaddressed) :
    Proceeds C base nop (o.InRange C.frame base.data.size) (location o) fun l d =>
      Prolongs C base nop d ∧ l.Valid := by
  intro d hd
  obtain ⟨l, hl, hvalid, -⟩ | ⟨err, herror, hfar, hrange⟩ := location_cases hmemory ho d
  · rw [hl]
    refine ⟨fun l' d' hrun => ?_, fun _ _ hrun => by cases hrun⟩
    cases hrun
    exact ⟨hd, hvalid⟩
  · rw [herror]
    refine ⟨fun _ _ hrun => (by cases hrun), fun err' d' hrun => ?_⟩
    cases hrun
    rw [hd.holds.frame] at hrange
    exact ⟨Error.isUnhandled_of_isOutOfRange hfar, fun h => hrange (h.mono hd.data)⟩

/-! ### Registers -/

section

variable {C : Context} {base : Draft} {nop : Bool} {P : Prop} {kind : Kind}
  {r : Register} {l : Location}

/-- A register that a value of the kind is moved from and to: a general one, or one for floats. -/
theorem movable_cases (h : ¬ (Operand.reg r kind).Unmovable) : (∃ g, Gpr.ofRegister? r = some g) ∨
    Gpr.ofRegister? r = none ∧ kind.isFloating = true ∧ ∃ x, Xmm.ofRegister? r = some x := by
  cases hr : Gpr.ofRegister? r with
  | some g => exact .inl ⟨g, rfl⟩
  | none =>
    exact .inr ⟨rfl, (Bool.eq_false_or_eq_true _).resolve_right fun hkind => h ⟨hr, .inr hkind⟩,
      Option.ne_none_iff_exists'.mp fun hx => h ⟨hr, .inl hx⟩⟩

theorem locates_load (h : ¬ (Operand.reg r kind).Unmovable) (hl : l.Valid) :
    Locates C base nop P (load kind r l) := by
  unfold load
  obtain ⟨g, hg⟩ | ⟨hg, hkind, x, hx⟩ := movable_cases h
  · rw [hg]
    exact locates_loadGpr hl
  · rw [hg, hx]
    dsimp only
    rw [loadXmm, if_pos hkind]
    exact locates_emitAt hl fun _ => rfl

theorem locates_store (h : ¬ (Operand.reg r kind).Unmovable) (hl : l.Valid) :
    Locates C base nop P (store kind r l) := by
  unfold store
  obtain ⟨g, hg⟩ | ⟨hg, hkind, x, hx⟩ := movable_cases h
  · rw [hg]
    exact locates_storeGpr hl
  · rw [hg, hx]
    dsimp only
    rw [storeXmm, if_pos hkind]
    exact locates_emitAt hl fun _ => rfl

theorem refused_store (h : (Operand.reg r kind).Unmovable)
    (l : Location) : Refused (store kind r l) := by
  obtain ⟨hr, hx⟩ := h
  unfold store
  rw [hr]
  cases hxmm : Xmm.ofRegister? r with
  | none => exact refused_unhandled _
  | some x =>
    obtain hnone | hkind := hx
    · cases hxmm.symm.trans hnone
    · dsimp only
      rw [storeXmm, if_neg (by rw [hkind]; exact Bool.false_ne_true)]
      exact refused_unhandled _

/-- A value in memory goes to the scratch register from its place. -/
theorem toScratch_of_memory (hmemory : o.isMemory = true) :
    toScratch o = location o >>= fun l =>
      discard (loadGpr o.kind scratch l) >>= fun _ => pure scratch := by
  have hload : load o.kind scratch.register = loadGpr o.kind scratch := rfl
  have hdst : inData (.reg scratch.register o.kind) = false := rfl
  cases o with
  | reg | const => cases hmemory
  | stack | addr =>
    unfold toScratch mov
    simp only [hdst, hload, Bool.false_eq_true, if_false, bind_assoc]

theorem refused_inGpr (h : o.Unreadable) : Refused (inGpr o) := by
  obtain ⟨hregister, hg⟩ | h := h
  · rw [inGpr, if_pos hregister]
    exact refused_gpr hg
  · cases o with
    | reg | stack | const => exact h.elim
    | addr a =>
      have hmemory : toScratch (.addr a) = _ := toScratch_of_memory rfl
      rw [inGpr, if_neg (by exact Bool.false_ne_true), hmemory]
      exact (refused_location h).bind

/-- A value is brought to a general register: its own, or the scratch register. -/
theorem proceeds_inGpr (h : ¬ o.Unreadable) :
    Proceeds C base nop (o.InRange C.frame base.data.size) (inGpr o)
    fun g d => Prolongs C base nop d ∧ (gpr? o = some g ∨ o.isRegister = false ∧ g = scratch) := by
  cases hregister : o.isRegister with
  | true =>
    cases hg : gpr? o with
    | none => exact absurd (.inl ⟨hregister, hg⟩) h
    | some g =>
      rw [inGpr, if_pos hregister, gpr_eq_pure hg]
      exact triple_pure fun _ hd => ⟨hd, .inl rfl⟩
  | false =>
    rw [inGpr, if_neg (by rw [hregister]; exact Bool.false_ne_true)]
    cases hmemory : o.isMemory with
    | true =>
      rw [toScratch_of_memory hmemory]
      exact (proceeds_location hmemory fun ho => h (.inr ho)).seq fun l hl =>
        (locates_loadGpr hl).proceeds.bind fun _ => triple_pure fun _ hd => ⟨hd, .inr ⟨rfl, rfl⟩⟩
    | false =>
      cases o with
      | reg => cases hregister
      | stack | addr => cases hmemory
      | const c =>
        exact (proceeds_constantToRegister c scratch false).bind fun _ => triple_pure fun _ hd =>
          ⟨hd, .inr ⟨rfl, rfl⟩⟩

/-- A value out of range fails at once. -/
theorem inGpr_eq_error (h : ¬ o.InRange d.frame d.data.size) :
    ∃ err, inGpr o d = .error err d ∧ err.isOutOfRange = true := by
  have ho : ¬ o.Misaddressed := fun ho => h (Operand.Unreadable.inRange (.inr ho) _ _)
  have hmemory : o.isMemory = true ∧ o.isRegister = false := by
    cases o with
    | reg | const => exact absurd trivial h
    | stack | addr => exact ⟨rfl, rfl⟩
  rw [inGpr, if_neg (by rw [hmemory.2]; exact Bool.false_ne_true), toScratch_of_memory hmemory.1]
  obtain ⟨l, -, -, hrange⟩ | ⟨err, herror, hfar, -⟩ := location_cases hmemory.1 ho d
  · exact absurd hrange h
  · exact ⟨err, Step.bind_of_error herror, hfar⟩

/-! ### Cells -/

theorem locates_readCell (hconstant : o.isConstant = false) (h : ¬ o.Unmovable) (hl : l.Valid) :
    Locates C base nop (o.InRange C.frame base.data.size) (readCell l o) := by
  have hmemory : o.isMemory = true → ¬ o.Misaddressed →
    Locates C base nop (o.InRange C.frame base.data.size) (do
      let pc ← loadGpr o.kind scratch l
      discard (storeGpr o.kind scratch (← location o))
      return pc) := by
    intro hmemory ho
    refine (locates_loadGpr hl).seq fun pc hpc => ?_
    exact (proceeds_location hmemory ho).seq fun l' hl' =>
      (locates_storeGpr hl').proceeds.bind fun _ => triple_pure fun _ hd => ⟨hd, hpc⟩
  unfold readCell
  cases o with
  | reg r kind => exact locates_load h hl
  | const => cases hconstant
  | stack | addr => exact hmemory rfl h

theorem refused_writeCell
    (h : o.Unmovable ∨ o.NeedsRegister ∧ l.mem.uses scratch = true) : Refused (writeCell l o) := by
  unfold writeCell
  dsimp only
  split
  · exact refused_unhandled _
  · rename_i hscratch
    rw [← Operand.storeNeedsScratch_iff, ← Bool.and_eq_true] at h
    have h := h.resolve_right hscratch
    cases o with
    | reg r kind => exact refused_store h l
    | stack | const => exact h.elim
    | addr a => exact (refused_location h).bind

theorem locates_writeCell (h : ¬ o.Unmovable)
    (hscratch : ¬ (o.NeedsRegister ∧ l.mem.uses scratch = true)) (hl : l.Valid) :
    Locates C base nop (o.InRange C.frame base.data.size) (writeCell l o) := by
  have hmemory : o.isMemory = true → ¬ o.Misaddressed →
    Locates C base nop (o.InRange C.frame base.data.size) (do
      discard (loadGpr o.kind scratch (← location o))
      storeGpr o.kind scratch l) := fun hmemory ho =>
    (proceeds_location hmemory ho).seq fun l' hl' =>
      (locates_loadGpr hl').proceeds.bind fun _ => locates_storeGpr hl
  unfold writeCell
  dsimp only
  rw [← Operand.storeNeedsScratch_iff, ← Bool.and_eq_true] at hscratch
  rw [if_neg hscratch]
  cases o with
  | reg r kind => exact locates_store h hl
  | const c => exact locates_constantToMemory hl
  | stack | addr => exact hmemory rfl h

end

end Lower

end MachineCode
