import MachineCode.Proofs.Effects.Primitives

/-! The effects of moves, in all combinations of operands: the destination and the scratch
registers. -/
namespace MachineCode.Lower

open X64

variable {C : Context} {e e' : Effect} {l : Location}

/-! ### Loads and stores -/

theorem mem?_loadInstr (kind : Kind) (dst : Gpr) (m : Mem) :
    (loadInstr kind dst m).mem? = some m := by
  cases kind <;> rfl

theorem mem?_storeInstr (kind : Kind) (src : Gpr) (m : Mem) :
    (storeInstr kind src m).mem? = some m := by
  cases kind <;> rfl

theorem footprint_loadInstr (kind : Kind) (dst : Gpr) (m : Mem) :
    (loadInstr kind dst m).footprint = .gpr dst := by
  cases kind <;> rfl

/-- A store writes as many bytes as the kind has. -/
theorem footprint_storeInstr (kind : Kind) (src : Gpr) (m : Mem) :
    (storeInstr kind src m).footprint = .memory m kind.size := by
  cases kind <;> rfl

theorem accesses_loadGpr {kind : Kind} {dst : Gpr} (hl : l.Valid) (h : e.gprs dst) :
    Accesses C e (loadGpr kind dst l) :=
  accesses_at hl (mem?_loadInstr kind dst) (footprint_loadInstr kind dst _) (e.admits_gpr h)

theorem closes_storeGpr {kind : Kind} {src : Gpr} (hl : l.Valid) (h : e'.stores l kind.size) :
    Closes C e e' (storeGpr kind src l) :=
  closes_at hl (mem?_storeInstr kind src) (footprint_storeInstr kind src _) (e'.admits_memory h)

theorem accesses_loadXmm {kind : Kind} {dst : Xmm} (hl : l.Valid) (h : e.xmms dst) :
    Accesses C e (loadXmm kind dst l) := by
  unfold loadXmm
  split
  · exact accesses_at hl (fun _ => rfl) rfl (e.admits_xmm h)
  · exact accesses_unhandled _

/-- A scalar float has the size of its kind. -/
theorem bytes_ofWide_isDouble {kind : Kind} (h : kind.isFloating = true) :
    (Width.ofWide kind.isDouble).bytes = kind.size := by
  cases kind <;> first | rfl | cases h

theorem closes_storeXmm {kind : Kind} {src : Xmm} (hl : l.Valid) (h : e'.stores l kind.size) :
    Closes C e e' (storeXmm kind src l) := by
  unfold storeXmm
  split
  · rename_i hkind
    refine closes_at hl (fun _ => rfl) rfl (e'.admits_memory ?_)
    rwa [bytes_ofWide_isDouble hkind]
  · exact closes_unhandled _

theorem accesses_load {kind : Kind} {dst : Register} (hl : l.Valid) (h : e.Overwrites dst) :
    Accesses C e (load kind dst l) := by
  unfold load
  split
  · rename_i g hg
    exact accesses_loadGpr hl (h.gpr g hg)
  · rename_i x _ hx
    exact accesses_loadXmm hl (h.xmm x hx)
  · exact accesses_unhandled _

theorem closes_store {kind : Kind} {src : Register} (hl : l.Valid) (h : e'.stores l kind.size) :
    Closes C e e' (store kind src l) := by
  unfold store
  split
  · exact closes_storeGpr hl h
  · exact closes_storeXmm hl h
  · exact closes_unhandled _

theorem does_registerToRegister {src dst : Register} {kind : Kind} (h : e.Overwrites dst) :
    Does C e (registerToRegister src dst kind) := by
  unfold registerToRegister
  split
  · exact does_pure ()
  · split
    · rename_i d _ hd
      exact does_plain rfl rfl (e.admits_gpr (h.gpr _ hd))
    · split
      · rename_i d _ hd
        exact does_plain rfl rfl (e.admits_xmm (h.xmm _ hd))
      · exact lowers_unhandled _
    · exact lowers_unhandled _

/-! ### Constants -/

theorem does_constant (bytes : List UInt8) (align : Nat) :
    Does C e (onData (·.constant bytes align)) :=
  lowers_action (.constant bytes align) trivial fun _ _ => ⟨rfl, fun _ _ _ => trivial⟩

/-- The slot of an object is recorded when it is new. -/
theorem does_slot {o : ObjectId} {f : Nat → Lower Unit} (hf : ∀ offset, Does C e (f offset)) :
    Does C e (do
      let (offset, isNew) ← onData (·.objectSlot o)
      if isNew then record (SideTables.recordDataObject offset o)
      f offset) := by
  intro d hd
  have hslot : Does C e (Action.slot o).perform := does_action (.slot o) trivial rfl
  obtain ⟨as, has, heq, -⟩ := (hslot.andThen fun _ => hf (d.data.objectSlot o).1.1) d hd
  refine ⟨as, has, .trans (Step.discard_congr ?_) heq, fun _ _ _ => trivial⟩
  have honData : onData (·.objectSlot o) d =
    .ok (d.data.objectSlot o).1 { d with data := (d.data.objectSlot o).2 } := rfl
  rw [Action.perform, bind_assoc, Step.bind_of_ok honData, Step.bind_of_ok honData]
  dsimp only
  split <;> rfl

theorem does_objectToRegister {o : ObjectId} {dst : Gpr} (h : e.gprs dst) :
    Does C e (objectToRegister o dst) := by
  unfold objectToRegister
  refine lowers_get.andThen fun d => ?_
  split
  · exact does_action (.embed o dst) h (by unfold Action.perform; rfl)
  · exact does_slot fun offset =>
      does_at (i := .load true dst) (valid_ofData offset) (fun _ => rfl) rfl (e.admits_gpr h)

theorem does_constantToXmm {c : Constant} {dst : Xmm} (h : e.xmms dst) :
    Does C e (constantToXmm c dst) := by
  unfold constantToXmm
  dsimp only
  split
  · exact lowers_unhandled _
  · split
    · exact does_plain rfl rfl (e.admits_xmm h)
    · have hdata : Does C e (onData fun s =>
          if c.kind.isDouble then s.doubleBits c.bits else s.floatBits c.low32) := by
        split <;> exact does_constant _ _
      exact hdata.andThen fun offset =>
        does_at (valid_ofData offset) (fun _ => rfl) rfl (e.admits_xmm h)

theorem does_zero {r : Gpr} (h : e.gprs r) : Does C e (emit (zero r)) :=
  does_plain rfl rfl (e.admits_gpr h)

theorem does_movImm {wide : Bool} {r : Gpr} {value : UInt64} (h : e.gprs r) :
    Does C e (emit (.movImm wide r value)) :=
  does_plain rfl (Instr.footprint_movImm wide r value) (e.admits_gpr h)

theorem does_constantToRegister {c : Constant} {dst : Register} {keepFlags : Bool}
    (h : e.Overwrites dst) : Does C e (constantToRegister c dst keepFlags) := by
  unfold constantToRegister
  split
  · rename_i x hx
    exact does_constantToXmm (h.xmm x hx)
  · exact lowers_unhandled _
  · rename_i r _ hr
    have hr := h.gpr r hr
    split
    · exact does_objectToRegister hr
    · split
      · exact does_zero hr
      · split <;> exact does_movImm hr

/-- The bytes that a value takes in memory of this kind. An object's address is always stored as a
word. -/
def storedSize (src : Operand) (kind : Kind) : Nat :=
  match src with
  | .const c => if c.object?.isSome then 8 else kind.size
  | _ => kind.size

theorem closes_constantToMemory {c : Constant} {kind : Kind} (hl : l.Valid)
    (h : e'.stores l (storedSize (.const c) kind)) : Closes C e e' (constantToMemory c kind l) := by
  unfold constantToMemory
  split
  · rename_i o ho
    refine Closes.after (does_objectToRegister e.scratch) fun _ _ => closes_storeGpr hl ?_
    change e'.stores l 8
    simpa [storedSize, ho] using h
  · rename_i ho
    have h : e'.stores l kind.size := by simpa [storedSize, ho] using h
    split
    · rename_i hsize
      rw [hsize] at h
      split
      · exact closes_at (i := (.storeImm .qword · _)) hl (fun _ => rfl) rfl (e'.admits_memory h)
      · exact Closes.after (does_movImm e.scratch) fun _ _ => closes_storeGpr hl h
    · refine closes_at hl (fun _ => rfl) rfl (e'.admits_memory ?_)
      revert h
      cases kind <;> exact id

/-! ### Moves -/

/-- The effect covers a move of `src` to `dst`. Nothing is moved into the data section. -/
structure Receives (C : Context) (e : Effect) (src dst : Operand) : Prop where
  register : e.Sets dst
  memory : inData dst = false → ∀ l, place? C.frame dst = some l →
    e.stores l (storedSize src dst.kind)

theorem receives_reg {src : Operand} {r : Register} {kind : Kind} (h : e.Overwrites r) :
    Receives C e src (.reg r kind) where
  register := by
    rintro _ ⟨⟩
    exact h
  memory := by simp [place?]

theorem does_mov {src dst : Operand} {keepFlags : Bool} (h : Receives C e src dst) :
    Does C e (mov src dst keepFlags) := by
  unfold mov
  split
  · exact lowers_unhandled _
  · rename_i hdata
    have hmem := h.memory (by simpa using hdata)
    split
    · exact lowers_unhandled _
    · exact does_registerToRegister (h.register _ rfl)
    · refine (finds_location dst).lowers.bind fun l hl => (closes_store hl.2 ?_).accesses.does
      simpa [storedSize] using hmem l hl.1
    · exact does_constantToRegister (h.register _ rfl)
    · exact (finds_location dst).lowers.bind fun l hl =>
        (closes_constantToMemory hl.2 (hmem l hl.1)).accesses.does
    · exact (finds_location src).lowers.bind fun l hl =>
        (accesses_load hl.2 (h.register _ rfl)).does
    · rename_i hreg hconst _ _ _
      refine (finds_location src).lowers.bind fun source hsource => ?_
      refine (finds_location dst).lowers.bind fun target htarget => ?_
      refine (accesses_loadGpr hsource.2 e.scratch).does.andThen fun _ => ?_
      refine (closes_storeGpr htarget.2 ?_).accesses.does
      have hsize : storedSize src dst.kind = dst.kind.size := by
        cases src <;> simp_all [storedSize]
      exact hsize ▸ hmem target htarget.1

/-- A move to memory ends with the store. -/
theorem closes_mov {src dst : Operand} {keepFlags : Bool} (hdst : dst.isRegister = false)
    (h : inData dst = false → ∀ l, place? C.frame dst = some l →
      e'.stores l (storedSize src dst.kind)) :
    ∃ x, mov src dst keepFlags = discard x ∧ Closes C e e' x := by
  have hrefused :
      ∀ detail : String, ∃ x, (unhandled detail : Lower Unit) = discard x ∧ Closes C e e' x :=
    fun detail => ⟨unhandled detail, rfl, closes_unhandled detail⟩
  unfold mov
  split
  · exact hrefused _
  · rename_i hdata
    have hmem := h (by simpa using hdata)
    split
    · exact hrefused _
    · cases hdst
    · refine ⟨_, (Step.discard_bind _ _).symm, Closes.after (finds_location dst).lowers fun l hl =>
        closes_store hl.2 ?_⟩
      simpa [storedSize] using hmem l hl.1
    · cases hdst
    · exact ⟨_, (Step.discard_bind _ _).symm, Closes.after (finds_location dst).lowers fun l hl =>
        closes_constantToMemory hl.2 (hmem l hl.1)⟩
    · cases hdst
    · rename_i hreg hconst _ _ _
      refine ⟨do
        let source ← location src
        let target ← location dst
        discard (loadGpr src.kind scratch source)
        storeGpr dst.kind scratch target, by simp only [Step.discard_bind], ?_⟩
      refine Closes.after (finds_location src).lowers fun source hsource =>
        Closes.after (finds_location dst).lowers fun target htarget =>
        Closes.after (accesses_loadGpr hsource.2 e.scratch).does fun _ _ =>
          closes_storeGpr htarget.2 ?_
      have hsize : storedSize src dst.kind = dst.kind.size := by
        cases src <;> simp_all [storedSize]
      exact hsize ▸ hmem target htarget.1

theorem does_toScratch (src : Operand) : Does C e (toScratch src) :=
  (does_mov (receives_reg e.overwrites_scratch)).andThen fun _ => does_pure scratch

theorem does_toFloatScratch (src : Operand) : Does C e (toFloatScratch src) :=
  (does_mov (receives_reg e.overwrites_floatScratch)).andThen fun _ => does_pure floatScratch

theorem does_inGpr (o : Operand) : Does C e (inGpr o) := by
  unfold inGpr
  split
  · exact (finds_gpr o).lowers.does
  · exact does_toScratch o

theorem does_inXmm (o : Operand) : Does C e (inXmm o) := by
  unfold inXmm
  split
  · exact (finds_xmm o).lowers.does
  · exact does_toFloatScratch o

end MachineCode.Lower
