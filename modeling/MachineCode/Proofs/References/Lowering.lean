import MachineCode.Proofs.Effects.Control
import MachineCode.Proofs.References.Tidy
import MachineCode.Proofs.References.Widths

/-! Lowering keeps references in order: moves, arithmetic and compares. -/
namespace MachineCode.Lower

open X64 SideTables

variable {strict : Prop} {n : Nat} {l : Location}

/-! ### Places -/

/-- An access that is as wide as the kind of the operand. -/
theorem snug_at {o : Operand} {i : Mem → Instr} (hl : l.Covers n o) (hi : ∀ m, (i m).mem? = some m)
    (hsize : (i l.mem).decoded.accessSize ≤ 8)
    (h : strict → inData o = true → (i l.mem).decoded.accessSize ≤ o.kind.size) :
    Snug strict n (emitAt l i) := by
  refine snug_emitAt hl.valid hi fun offset hdata => ?_
  obtain ⟨hin, hle⟩ := hl.inside offset hdata
  refine ⟨fun hs => ?_, fun h16 => ?_⟩
  · have := h hs hin
    omega
  · omega

/-- An access outside of the data section. -/
theorem snug_at_plain {i : Mem → Instr} (hl : l.Valid) (hdata : l.data = none)
    (hi : ∀ m, (i m).mem? = some m) : Snug strict n (emitAt l i) :=
  snug_emitAt hl hi fun offset h => by rw [hdata] at h; cases h

theorem snug_gpr (o : Operand) : Snug strict n (gpr o) := by
  unfold gpr
  split
  · split
    · exact snug_pure _
    · exact snug_unhandled _
  · exact snug_unhandled _

theorem snug_xmm (o : Operand) : Snug strict n (xmm o) := by
  unfold xmm
  split
  · split
    · exact snug_pure _
    · exact snug_unhandled _
  · exact snug_unhandled _

theorem snug_stackMem (offset : Nat) : Snug strict n (stackMem offset) :=
  (snug_ofExcept _).bind fun _ => snug_pure _

/-! ### Moves -/

theorem accessSize_loadInstr (kind : Kind) (dst : Gpr) (m : Mem) :
    (loadInstr kind dst m).decoded.accessSize = kind.size := by cases kind <;> rfl

theorem accessSize_storeInstr (kind : Kind) (src : Gpr) (m : Mem) :
    (storeInstr kind src m).decoded.accessSize = kind.size := by cases kind <;> rfl

variable {o : Operand}

theorem snug_loadGpr {dst : Gpr} (hl : l.Covers n o) : Snug strict n (loadGpr o.kind dst l) :=
  snug_at hl (mem?_loadInstr _ _) (by rw [accessSize_loadInstr]; exact Kind.size_le _)
    fun _ _ => Nat.le_of_eq (accessSize_loadInstr _ _ _)

theorem snug_storeGpr {src : Gpr} (hl : l.Covers n o) : Snug strict n (storeGpr o.kind src l) :=
  snug_at hl (mem?_storeInstr _ _) (by rw [accessSize_storeInstr]; exact Kind.size_le _)
    fun _ _ => Nat.le_of_eq (accessSize_storeInstr _ _ _)

theorem snug_loadXmm {dst : Xmm} (hl : l.Covers n o) : Snug strict n (loadXmm o.kind dst l) := by
  unfold loadXmm
  split
  · rename_i hkind
    have hsize : (Instr.movsLoad o.kind.isDouble dst l.mem).decoded.accessSize = o.kind.size :=
      Kind.scalarSize_isDouble hkind
    exact snug_at hl (fun _ => rfl) (by rw [hsize]; exact Kind.size_le _) fun _ _ =>
      Nat.le_of_eq hsize
  · exact snug_unhandled _

theorem snug_storeXmm {src : Xmm} (hl : l.Covers n o) : Snug strict n (storeXmm o.kind src l) := by
  unfold storeXmm
  split
  · rename_i hkind
    have hsize : (Instr.movsStore o.kind.isDouble src l.mem).decoded.accessSize = o.kind.size :=
      Kind.scalarSize_isDouble hkind
    exact snug_at hl (fun _ => rfl) (by rw [hsize]; exact Kind.size_le _) fun _ _ =>
      Nat.le_of_eq hsize
  · exact snug_unhandled _

theorem snug_load {dst : Register} (hl : l.Covers n o) : Snug strict n (load o.kind dst l) := by
  unfold load
  split
  · exact snug_loadGpr hl
  · exact snug_loadXmm hl
  · exact snug_unhandled _

theorem snug_store {src : Register} (hl : l.Covers n o) : Snug strict n (store o.kind src l) := by
  unfold store
  split
  · exact snug_storeGpr hl
  · exact snug_storeXmm hl
  · exact snug_unhandled _

theorem snug_registerToRegister (src dst : Register) (kind : Kind) :
    Snug strict n (registerToRegister src dst kind) := by
  unfold registerToRegister
  split
  · exact snug_pure ()
  · split
    · exact snug_emit _
    · split
      · exact snug_emit _
      · exact snug_unhandled _
    · exact snug_unhandled _

/-! The slot of an object and the constants that code needs lie in the section. -/

theorem snug_objectToRegister (x : ObjectId) (dst : Gpr) :
    Snug strict n (objectToRegister x dst) := by
  unfold objectToRegister
  refine snug_get.bind fun d => ?_
  split
  · exact snug_embed x dst _
  · refine snug_onData (p := fun r k => r.1 + 8 ≤ k ∧ 8 ∣ r.1) (fun s hs => ?_) fun r k _ hr => ?_
    · obtain ⟨hs', hmem⟩ := hs.objectSlot x
      exact ⟨hs', (s.objectSlot_bounds x).1, hs'.slots _ hmem⟩
    · have hload : Snug strict k (discard (emitAt (.ofData r.1) (.load true dst))) := by
        refine Snug.discard (snug_emitAt (valid_ofData _) (fun _ => rfl) ?_)
        rintro _ ⟨⟩
        exact ⟨fun _ => hr.1, nofun⟩
      dsimp only
      split
      · exact Snug.bind (snug_record fun t t' ht => by cases eq_of_keyed ht; exact ⟨rfl, rfl⟩)
          fun _ => hload
      · exact hload

/-- An aligned constant of the section, and an instruction that reads all of it. -/
theorem snug_dataAt {bytes : List UInt8} {align : Nat} {i : Mem → Instr}
    (hi : ∀ m, (i m).mem? = some m) (hsize : ∀ m, (i m).decoded.accessSize = bytes.length)
    (halign : bytes.length = 16 → align = 16) :
    Snug strict n (do
      let offset ← onData (·.constant bytes align)
      discard (emitAt (.ofData offset) i)) := by
  refine snug_onData (p := fun offset k => offset + bytes.length ≤ k ∧ (align ≠ 0 → align ∣ offset))
    (fun s hs => ?_) fun offset k _ hoffset => Snug.discard (snug_emitAt (valid_ofData _) hi ?_)
  · obtain ⟨hs', hmem⟩ := hs.constant bytes align
    exact ⟨hs', s.size_le_constant bytes align, hs'.inside _ hmem, hs'.aligned _ hmem⟩
  · rintro _ ⟨⟩
    refine ⟨fun _ => (hsize _).symm ▸ hoffset.1, fun h => ?_⟩
    rw [hsize] at h
    exact halign h ▸ hoffset.2 (by rw [halign h]; decide)

theorem snug_constantToXmm (c : Constant) (dst : Xmm) : Snug strict n (constantToXmm c dst) := by
  unfold constantToXmm
  dsimp only
  split
  · exact snug_unhandled _
  · split
    · exact snug_emit _
    · cases c.kind.isDouble with
      | true =>
        refine snug_dataAt (fun _ => rfl) (fun _ => ?_) nofun
        exact (length_leBytes 8 _).symm
      | false =>
        refine snug_dataAt (fun _ => rfl) (fun _ => ?_) nofun
        exact (length_leBytes 4 _).symm

theorem snug_constantToRegister (c : Constant) (dst : Register) (keepFlags : Bool) :
    Snug strict n (constantToRegister c dst keepFlags) := by
  unfold constantToRegister
  split
  · exact snug_constantToXmm _ _
  · exact snug_unhandled _
  · split
    · exact snug_objectToRegister _ _
    · split
      · exact snug_emit _
      · split <;> exact snug_emit _

/-- Constants are not stored into the data section. -/
theorem snug_constantToMemory {c : Constant} {kind : Kind} (hl : l.Valid) (hdata : l.data = none) :
    Snug strict n (constantToMemory c kind l) := by
  unfold constantToMemory
  split
  · exact (snug_objectToRegister _ _).bind fun _ => snug_at_plain hl hdata (mem?_storeInstr _ _)
  · split
    · split
      · exact snug_at_plain (i := (.storeImm .qword · _)) hl hdata fun _ => rfl
      · exact (snug_emit _).bind fun _ => snug_at_plain hl hdata (mem?_storeInstr _ _)
    · exact snug_at_plain (i := (.storeImm _ · _)) hl hdata fun _ => rfl

theorem snug_mov (src dst : Operand) (keepFlags : Bool) :
    Snug strict n (mov src dst keepFlags) := by
  unfold mov
  split
  · exact snug_unhandled _
  · rename_i hdst
    split
    · exact snug_unhandled _
    · exact snug_registerToRegister _ _ _
    · exact snug_location fun l k _ hl => (snug_store hl).discard
    · exact snug_constantToRegister _ _ _
    · exact snug_location fun l k _ hl =>
        (snug_constantToMemory hl.valid (hl.data_eq_none (by simpa using hdst))).discard
    · exact snug_location fun l k _ hl => (snug_load hl).discard
    · exact snug_location fun source k _ hsource => snug_location fun target k' hle htarget =>
        Snug.bind (Snug.mono (snug_loadGpr hsource).discard hle) fun _ =>
          (snug_storeGpr htarget).discard

theorem snug_toScratch (src : Operand) : Snug strict n (toScratch src) :=
  (snug_mov _ _ _).bind fun _ => snug_pure scratch

theorem snug_toFloatScratch (src : Operand) : Snug strict n (toFloatScratch src) :=
  (snug_mov _ _ _).bind fun _ => snug_pure floatScratch

theorem snug_inGpr (o : Operand) : Snug strict n (inGpr o) := by
  unfold inGpr
  split
  · exact snug_gpr o
  · exact snug_toScratch o

theorem snug_inXmm (o : Operand) : Snug strict n (inXmm o) := by
  unfold inXmm
  split
  · exact snug_xmm o
  · exact snug_toFloatScratch o

/-! ### Integers -/

theorem accessSize_withRm (op : Binary) (wide : Bool) (dst : Gpr) (m : Mem) :
    (op.withRm wide dst (.mem m)).decoded.accessSize = (Width.ofWide wide).bytes := by
  cases op <;> rfl

theorem bytes_ofWide_le (wide : Bool) : (Width.ofWide wide).bytes ≤ 8 := by cases wide <;> decide

theorem snug_applyConstant (op : Binary) (wide : Bool) (dst : Gpr) (c : Constant) :
    Snug strict n (applyConstant op wide dst c) := by
  unfold applyConstant
  split
  · exact (snug_objectToRegister _ _).bind fun _ => snug_emit _
  · split
    · exact snug_emit _
    · exact (snug_emit _).bind fun _ => snug_emit _

theorem snug_applyBinary {op : Binary} {wide : Bool} {dst : Gpr} {right : Operand}
    (h : strict → right.SuppliesInteger wide) : Snug strict n (applyBinary op wide dst right) := by
  unfold applyBinary
  split
  · exact (snug_gpr _).bind fun _ => snug_emit _
  · exact snug_applyConstant _ _ _ _
  · split
    · exact (snug_toScratch _).bind fun _ => snug_emit _
    · rename_i hsize
      refine snug_location fun l k _ hl => Snug.discard (snug_at hl ?_ ?_ fun hs hin => ?_)
      · cases op <;> exact fun _ => rfl
      · rw [accessSize_withRm]
        exact bytes_ofWide_le wide
      · rw [accessSize_withRm]
        exact (h hs).resolve_left hsize hin

theorem snug_withoutUse (res : Gpr) (right : Operand) : Snug strict n (withoutUse res right) := by
  unfold withoutUse
  dsimp only
  split
  · refine snug_location fun l k _ hl => ?_
    split
    · exact (snug_toScratch right).bind fun _ => snug_pure _
    · exact snug_pure _
  · exact snug_pure _

/-- What is moved to the scratch register is no longer in memory. -/
theorem suppliesInteger_of_withoutUse {res : Gpr} {right o : Operand} {wide : Bool} {d d' : Draft}
    (hrun : withoutUse res right d = .ok o d') (h : right.SuppliesInteger wide) :
    o.SuppliesInteger wide := by
  have hreg : ∀ (r : Register) (kind : Kind), (Operand.reg r kind).SuppliesInteger wide :=
    fun _ _ => .inr nofun
  unfold withoutUse at hrun
  dsimp only at hrun
  split at hrun
  · obtain ⟨l, d₁, -, hrun⟩ := Step.bind_eq_ok.mp hrun
    split at hrun
    · obtain ⟨r, d₂, -, hrun⟩ := Step.bind_eq_ok.mp hrun
      cases hrun
      exact hreg _ _
    · cases hrun
      exact h
  · cases hrun
    exact h

theorem snug_binary {op : Binary} {left right result : Operand}
    (h : strict → (combined left right result).SuppliesInteger result.kind.isWord) :
    Snug strict n (binary op left right result) := by
  unfold binary
  refine (snug_gpr _).bind fun res => ?_
  dsimp only
  unfold combined at h
  split
  · rename_i hleft
    rw [if_neg fun hc => hc.2 hleft] at h
    exact (snug_mov _ _ _).bind fun _ => snug_applyBinary h
  · rename_i hleft
    split
    · rename_i hright
      rw [if_pos ⟨hright, hleft⟩] at h
      split
      · exact snug_applyBinary h
      · exact (snug_emit _).bind fun _ => (snug_mov _ _ _).bind fun _ => snug_emit _
    · rename_i hright
      rw [if_neg fun hc => hright hc.1] at h
      exact (snug_withoutUse res right).bind_of
        (fun _ _ _ hrun hs => suppliesInteger_of_withoutUse hrun (h hs)) fun o ho =>
        (snug_mov _ _ _).bind fun _ => snug_applyBinary ho

theorem snug_guardDivision (wide rem : Bool) (divisor : Gpr) (done : Label) :
    Snug strict n (guardDivision wide rem divisor done) := by
  unfold guardDivision
  refine snug_newLabel.bind fun normal => ?_
  extract_lets atMinusOne atLeast
  have hone : ∀ u, Snug strict n (atMinusOne u) := fun _ => (snug_emit _).bind fun _ =>
    (snug_jccShort _ _).bind fun _ => snug_bind normal
  have hleast : ∀ u, Snug strict n (atLeast u) := by
    intro u
    refine (snug_jccShort _ _).bind fun _ => ?_
    split
    · exact (snug_emit _).bind hone
    · exact hone ()
  split
  · exact (snug_emit _).bind fun _ => (snug_emit _).bind hleast
  · exact (snug_emit _).bind hleast

theorem snug_divideSigned (wide rem : Bool) (divisor : Gpr) :
    Snug strict n (divideSigned wide rem divisor) := by
  unfold divideSigned
  refine snug_newLabel.bind fun done => snug_get.bind fun d => ?_
  extract_lets quotient
  have hquotient : ∀ u, Snug strict n (quotient u) := fun _ => (snug_emit _).bind fun _ =>
    snug_position.bind fun _ => (snug_emit _).bind fun _ =>
      (snug_bind done).bind fun _ => snug_pure _
  split
  · exact (snug_guardDivision _ _ _ _).bind hquotient
  · exact hquotient ()

theorem snug_divideUnsigned (wide : Bool) (divisor : Gpr) :
    Snug strict n (divideUnsigned wide divisor) :=
  (snug_emit _).bind fun _ => snug_position.bind fun _ => (snug_emit _).bind fun _ => snug_pure _

theorem snug_recordImplicit (pc : Nat) (info : DebugInfo) :
    Snug strict n (record (SideTables.recordImplicitException pc info)) :=
  snug_record fun t t' ht => by cases eq_of_keyed ht; exact ⟨rfl, rfl⟩

theorem snug_recordHandlers (pc : Nat) (info : DebugInfo) :
    Snug strict n (record (SideTables.recordHandlers pc info)) :=
  snug_record fun t t' ht => by obtain ⟨rows, rfl⟩ := recordHandlers_eq_ok ht; exact ⟨rfl, rfl⟩

theorem snug_recordTrap (pc : Nat) (info : DebugInfo) : Snug strict n (recordTrap pc info) :=
  (snug_recordImplicit pc info).bind fun _ => snug_recordHandlers pc info

theorem snug_divide (isSigned rem : Bool) (left right result : Operand) (info : Option DebugInfo) :
    Snug strict n (divide isSigned rem left right result info) := by
  unfold divide
  refine (snug_gpr right).bind fun divisor => ?_
  split
  · exact snug_unhandled _
  · refine (snug_mov _ _ _).bind fun _ => ?_
    extract_lets out finish behind
    have hbehind : ∀ pc, Snug strict n (behind pc) := by
      intro pc
      dsimp only [behind]
      cases info with
      | none => exact snug_mov _ _ _
      | some info => exact (snug_recordTrap pc info).bind fun _ => snug_mov _ _ _
    split
    · exact (snug_divideSigned _ _ _).bind hbehind
    · exact (snug_divideUnsigned _ _).bind hbehind

theorem snug_integerArith {op : ArithOp} {left right result : Operand} {info : Option DebugInfo}
    (h : strict → op.isDivision = true ∨
      (combined left right result).SuppliesInteger result.kind.isWord) :
    Snug strict n (integerArith op left right result info) := by
  cases op with
  | add | sub | mul => exact snug_binary fun hs => (h hs).resolve_left nofun
  | div | rem | udiv | urem => exact snug_divide _ _ _ _ _ _

theorem snug_shift (op : ShiftOp) (value count result : Operand) :
    Snug strict n (shift op value count result) := by
  unfold shift
  refine (snug_gpr _).bind fun res => ?_
  dsimp only
  split
  · refine (snug_mov _ _ _).bind fun _ => ?_
    split
    · exact snug_emit _
    · exact snug_pure ()
  · refine (snug_gpr _).bind fun r => ?_
    split
    · exact snug_unhandled _
    · split
      · exact snug_unhandled _
      · exact (snug_mov _ _ _).bind fun _ => snug_emit _
  · exact snug_unhandled _

theorem snug_negateInteger (value result : Operand) : Snug strict n (negateInteger value result) :=
  (snug_gpr _).bind fun _ => (snug_mov _ _ _).bind fun _ => snug_emit _

theorem snug_absInteger (value result : Operand) : Snug strict n (absInteger value result) :=
  (snug_gpr _).bind fun _ => (snug_mov _ _ _).bind fun _ => (snug_emit _).bind fun _ =>
    (snug_emit _).bind fun _ => (snug_emit _).bind fun _ => snug_emit _

theorem snug_significantBit (most : Bool) (value result : Operand) :
    Snug strict n (significantBit most value result) := by
  unfold significantBit
  refine (snug_gpr _).bind fun res => (snug_inGpr value).bind fun src => ?_
  extract_lets tmp
  refine (snug_emit _).bind fun _ => (snug_emit _).bind fun _ => ?_
  split
  · exact snug_emit _
  · exact snug_pure ()

/-! ### Floats -/

theorem scalarSize_le (double : Bool) : Decoded.scalarSize double ≤ 8 := by cases double <;> decide

theorem snug_applySse {op : SseOp} {double : Bool} {dst : Xmm} {right : Operand}
    (h : strict → right.Supplies (Decoded.scalarSize double)) :
    Snug strict n (applySse op double dst right) := by
  unfold applySse
  split
  · exact (snug_xmm _).bind fun _ => snug_emit _
  · exact (snug_toFloatScratch _).bind fun _ => snug_emit _
  · exact snug_location fun l k _ hl => Snug.discard
      (snug_at (i := fun m => .sse op double dst (.mem m)) hl (fun _ => rfl)
        (scalarSize_le double) h)

theorem snug_floatArith {op : ArithOp} {left right result : Operand}
    (h : strict → (combined left right result).Supplies (Decoded.scalarSize result.kind.isDouble)) :
    Snug strict n (floatArith op left right result) := by
  unfold floatArith
  split
  · exact snug_unhandled _
  · refine (snug_xmm _).bind fun res => ?_
    dsimp only
    unfold combined at h
    split
    · rename_i hsides
      rw [if_pos hsides] at h
      split
      · exact snug_applySse h
      · exact (snug_emit _).bind fun _ => (snug_mov _ _ _).bind fun _ => snug_emit _
    · rename_i hsides
      rw [if_neg hsides] at h
      exact (snug_mov _ _ _).bind fun _ => snug_applySse h

theorem snug_arith {op : ArithOp} {left right result : Operand} {info : Option DebugInfo}
    (h : strict → op.Agrees left right result) :
    Snug strict n (arith op left right result info) := by
  unfold arith
  unfold ArithOp.Agrees at h
  split
  · rename_i hkind
    rw [if_pos hkind] at h
    exact snug_floatArith h
  · rename_i hkind
    rw [if_neg hkind] at h
    exact snug_integerArith h

/-- The mask takes 16 bytes and is aligned at 16. -/
theorem snug_mask (op : PackedOp) (double : Bool) (lane : UInt64) (res : Xmm) : Snug strict n (do
    let offset ← onData (·.mask128 lane lane)
    discard (emitAt (.ofData offset) fun m => .packed op double res (.mem m))) :=
  snug_dataAt (i := fun m => .packed op double res (.mem m)) (fun _ => rfl)
    (fun _ => rfl) fun _ => rfl

theorem snug_applyMask (op : PackedOp) (double : Bool) (lane : UInt64) (value result : Operand) :
    Snug strict n (applyMask op double lane value result) :=
  (snug_xmm _).bind fun res => (snug_mov _ _ _).bind fun _ => snug_mask _ _ _ res

theorem snug_negate (value result : Operand) : Snug strict n (negate value result) := by
  unfold negate
  dsimp only
  split
  · exact snug_applyMask _ _ _ _ _
  · exact snug_negateInteger _ _

theorem snug_abs (value result : Operand) : Snug strict n (abs value result) := by
  unfold abs
  dsimp only
  split
  · exact snug_applyMask _ _ _ _ _
  · exact snug_absInteger _ _

theorem snug_sqrt {value result : Operand}
    (h : strict → value.Supplies (Decoded.scalarSize result.kind.isDouble)) :
    Snug strict n (sqrt value result) :=
  (snug_xmm _).bind fun _ => snug_applySse h

/-! ### Compares -/

theorem snug_compareFloat {double : Bool} {left right : Operand}
    (h : strict → right.Supplies (Decoded.scalarSize double)) :
    Snug strict n (compareFloat double left right) := by
  unfold compareFloat
  refine (snug_xmm left).bind fun a => ?_
  split
  · exact (snug_xmm _).bind fun _ => snug_emit _
  · exact (snug_toFloatScratch _).bind fun _ => snug_emit _
  · exact snug_location fun l k _ hl => Snug.discard
      (snug_at (i := fun m => .ucomis double a (.mem m)) hl (fun _ => rfl) (scalarSize_le double) h)

theorem snug_compareConstant (wide : Bool) (left : Gpr) (c : Constant) :
    Snug strict n (compareConstant wide left c) := by
  unfold compareConstant
  split
  · exact snug_emit _
  · split
    · exact snug_emit _
    · split
      · exact snug_unhandled _
      · extract_lets behind
        have hbehind : ∀ u, Snug strict n (behind u) := fun _ => snug_emit _
        split
        · exact (snug_objectToRegister _ _).bind hbehind
        · exact (snug_emit _).bind hbehind

theorem snug_compareRegister {wide : Bool} {left : Gpr} {right : Operand}
    (h : strict → right.SuppliesInteger wide) :
    Snug strict n (compareRegister wide left right) := by
  unfold compareRegister
  split
  · exact (snug_gpr _).bind fun _ => snug_emit _
  · exact snug_compareConstant _ _ _
  · split
    · split
      · exact snug_unhandled _
      · exact (snug_toScratch _).bind fun _ => snug_emit _
    · rename_i hsize
      exact snug_location fun l k _ hl => Snug.discard
        (snug_at (i := fun m => .alu .cmp wide left (.mem m)) hl (fun _ => rfl)
          (bytes_ofWide_le wide)
          fun hs => (h hs).resolve_left hsize)

theorem snug_compareMemoryConstant {c : Constant} (hl : l.Covers n o) (ho : ¬ o.kind.size < 4) :
    Snug strict n (compareMemoryConstant o.kind.isWord l c) := by
  have hle := Kind.bytes_isWord ho
  unfold compareMemoryConstant
  split
  · extract_lets behind
    have hbehind : ∀ u, Snug strict n (behind u) := fun _ => Snug.discard
      (snug_at (i := (.aluStore .cmp _ · scratch)) hl (fun _ => rfl)
        (bytes_ofWide_le _) fun _ _ => hle)
    split
    · exact (snug_objectToRegister _ _).bind hbehind
    · exact (snug_emit _).bind hbehind
  · exact Snug.discard (snug_at (i := fun m => .aluImm .cmp _ (.mem m) _) hl (fun _ => rfl)
      (bytes_ofWide_le _) fun _ _ => hle)

theorem snug_compareMemory {right : Operand} (hl : l.Covers n o)
    (h : strict → right.SuppliesInteger o.kind.isWord) :
    Snug strict n (compareMemory o.kind l right) := by
  have hload : Snug strict n (discard (loadGpr o.kind scratch l)) := (snug_loadGpr hl).discard
  unfold compareMemory
  dsimp only
  split
  · rename_i hsize
    have hword : o.kind.isWord = false := by
      revert hsize
      cases o.kind <;> decide
    exact hload.bind fun _ => snug_compareRegister (hword ▸ h)
  · rename_i hsize
    split
    · exact (snug_gpr _).bind fun r => Snug.discard (snug_at (i := (.aluStore .cmp _ · r)) hl
        (fun _ => rfl) (bytes_ofWide_le _) fun _ _ => Kind.bytes_isWord hsize)
    · exact snug_compareMemoryConstant hl hsize
    · exact hload.bind fun _ => snug_compareRegister h

theorem snug_compare {left right : Operand} (h : strict → CompareAgrees left right) :
    Snug strict n (compare left right) := by
  unfold compare
  unfold CompareAgrees at h
  dsimp only
  split
  · rename_i hkind
    rw [if_pos hkind] at h
    exact snug_compareFloat h
  · rename_i hkind
    rw [if_neg hkind] at h
    split
    · exact (snug_gpr _).bind fun _ => snug_compareRegister h
    · exact snug_unhandled _
    · exact snug_location fun l k _ hl => snug_compareMemory hl h

theorem snug_lessOrUnordered (op : CompareToIntOp) (res : Gpr) (done : Label) :
    Snug strict n (lessOrUnordered op res done) := by
  unfold lessOrUnordered
  split
  · exact (snug_emit _).bind fun _ => snug_jccShort _ _
  · exact (snug_emit _).bind fun _ => (snug_jccShort _ _).bind fun _ => snug_jccShort _ _
  · exact (snug_emit _).bind fun _ => (snug_jccShort _ _).bind fun _ => snug_jccShort _ _
  · exact (snug_emit _).bind fun _ => (snug_jccShort _ _).bind fun _ => (snug_emit _).bind fun _ =>
      snug_jccShort _ _
  · exact (snug_emit _).bind fun _ => (snug_jccShort _ _).bind fun _ => (snug_emit _).bind fun _ =>
      snug_jccShort _ _

theorem snug_compareToInt {op : CompareToIntOp} {left right result : Operand}
    (h : strict → CompareAgrees left right) : Snug strict n (compareToInt op left right result) :=
  (snug_gpr _).bind fun res => (snug_compare h).bind fun _ => snug_newLabel.bind fun done =>
    (snug_lessOrUnordered op res done).bind fun _ => (snug_emit _).bind fun _ =>
    (snug_emit _).bind fun _ => snug_bind done

end MachineCode.Lower
