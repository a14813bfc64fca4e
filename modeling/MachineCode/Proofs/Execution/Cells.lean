import MachineCode.Proofs.Execution.Accessing
import MachineCode.Proofs.References.Methods

/-! Cells that templates access. The address of a cell is computed from a pointer wherever that is,
and the access faults there and nowhere else. -/
namespace MachineCode

open X64 Lower Machine

/-! ### Addresses -/

/-- A cell in memory: at a pointer, or at an index and a displacement from there. -/
structure Cell where
  pointer : Operand
  offset : Option (Operand × Scale × Int32)

namespace Cell

/-- An index as a number. A constant counts as it is. -/
def index? (s : Machine) : Operand → Option Word
  | .const c => some c.bits.toBitVec
  | o => (gpr? o).map s.reg

/-- How far the cell is from its pointer. -/
def offset? (cell : Cell) (s : Machine) : Option Word :=
  match cell.offset with
  | none => some 0
  | some (index, scale, disp) =>
    (index? s index).map fun n : Word => BitVec.ofInt 64 disp.toInt + n <<< scale.log2.val

/-- The address of the cell. -/
def address? (cell : Cell) (S : Site) (frame : Frame) (s : Machine) : Option Word :=
  (S.word? frame s cell.pointer).bind fun p => (cell.offset? s).map (p + ·)

@[simp] theorem index?_core (machine : Machine) (o : Operand) :
    index? machine.core o = index? machine o := by
  cases o <;> rfl

@[simp] theorem address?_core (cell : Cell) (S : Site) (frame : Frame) (machine : Machine) :
    cell.address? S frame machine.core = cell.address? S frame machine := by
  simp only [address?, offset?, Site.word?_core, index?_core]

/-- The index stays while the pointer is brought to the scratch register. -/
def Intact (cell : Cell) : Prop :=
  cell.pointer.isRegister = false → ∀ x ∈ cell.offset, gpr? x.1 ≠ some scratch

/-- The memory operand for the cell, with its pointer in the register. A constant index becomes part
of the displacement. -/
def mem (cell : Cell) (base : Gpr) : Lower Mem :=
  match cell.offset with
  | none => pure (.based base 0)
  | some (.const c, scale, disp) => do
    return .based base (← Lower.ofExcept (displacement32 (c.folded scale disp).toInt))
  | some (.reg r kind, scale, disp) => do
    let index ← gpr (.reg r kind)
    if index = .rsp then unhandled "rsp as index"
    else return .indexed base index scale.log2 disp
  | some (index, _, _) => unhandled s!"xir index in {index.shape}"

/-- The memory operand denotes the cell, with its pointer in the register. -/
structure Denotes (cell : Cell) (g : Gpr) (m : Mem) : Prop where
  encodable : m.Encodable
  fixed : m.isRip = false
  base : m.base = .reg g
  address : ∀ s : Machine, ∃ d, cell.offset? s = some d ∧ s.effectiveAddress m 0 = s.reg g + d

variable {C : Context} {cell : Cell} {base : Gpr}

/-- A scaled index is a multiple. -/
theorem shiftLeft_scale (n : Word) (scale : Scale) :
    n <<< scale.log2.val = n * BitVec.ofInt 64 scale.value := by
  rw [BitVec.shiftLeft_eq_mul_twoPow]
  cases scale <;> rfl

/-- A constant index is where a register with its bits would be. -/
theorem ofInt_folded (c : Constant) (scale : Scale) (disp : Int32) :
    BitVec.ofInt 64 (c.folded scale disp).toInt =
      BitVec.ofInt 64 disp.toInt + c.bits.toBitVec <<< scale.log2.val := by
  have hdisp : BitVec.ofInt 64 disp.toInt = disp.toInt64.toBitVec := rfl
  have hscale : BitVec.ofInt 64 scale.value = (Int64.ofNat scale.value).toBitVec := rfl
  rw [shiftLeft_scale, hdisp, hscale]
  exact BitVec.ofInt_toInt

theorem finds_mem (cell : Cell) (base : Gpr) : Finds C (cell.mem base) (cell.Denotes base) := by
  obtain ⟨pointer, offset⟩ := cell
  match offset with
  | none =>
    refine finds_pure ⟨encodable_based _ _, rfl, rfl, fun s => ⟨0, rfl, ?_⟩⟩
    simp [effectiveAddress, Mem.based]
  | some (.const c, scale, disp) =>
    refine (finds_displacement32 _).bind fun d hd =>
      finds_pure ⟨encodable_based _ _, rfl, rfl, fun s =>
      ⟨BitVec.ofInt 64 disp.toInt + c.bits.toBitVec <<< scale.log2.val, rfl, ?_⟩⟩
    simp only [effectiveAddress, Mem.based]
    rw [toInt_of_int32? hd, ofInt_folded]
    exact (BitVec.add_zero _).trans (BitVec.add_comm _ _)
  | some (.reg r kind, scale, disp) =>
    refine (finds_gpr _).bind fun g hg => ?_
    split
    · exact finds_unhandled _
    · rename_i hne
      refine finds_pure ⟨encodable_indexed hne, rfl, rfl, fun s =>
        ⟨BitVec.ofInt 64 disp.toInt + s.reg g <<< scale.log2.val, ?_, ?_⟩⟩
      · have hindex : index? s (.reg r kind) = some (s.reg g) := congrArg (Option.map s.reg) hg
        exact congrArg (Option.map _) hindex
      · simp only [effectiveAddress, Mem.indexed]
        rw [BitVec.add_comm (BitVec.ofInt 64 disp.toInt), BitVec.add_assoc]
  | some (.stack .., _, _) | some (.addr _, _, _) => exact finds_unhandled _

end Cell

/-! ### Accesses -/

section Accesses

variable {S : Site} {C : Context} {cell : Cell} {l : Location} {A B : Machine → Prop}
  {R : Assertion} {n : Nat}

/-- The pointer is where it is, or it is brought to the scratch register. -/
def Fetched (p : Operand) (g : Gpr) : Prop := p.isRegister = false ∧ g = scratch

/-- The index is not what is overwritten on the way. -/
theorem Cell.Intact.offset?_eq {G : Gpr → Prop} {X : Xmm → Prop} {M : Word → Prop} {s c : Machine}
    (h : cell.Intact) (hk : s.Keeps G X M c) (hG : ∀ g, G g → Fetched cell.pointer g) :
    cell.offset? c = cell.offset? s := by
  unfold Cell.offset?
  cases hoffset : cell.offset with
  | none => rfl
  | some x =>
    obtain ⟨index, scale, disp⟩ := x
    have hindex : Cell.index? c index = Cell.index? s index := by
      cases hg : gpr? index with
      | none =>
        cases index with
        | const k => rfl
        | reg | stack | addr => simp [Cell.index?, hg]
      | some g =>
        have hsame : c.reg g = s.reg g := hk.gprs g fun h' => by
          obtain ⟨hregister, rfl⟩ := hG g h'
          exact h hregister _ (by rw [hoffset]; rfl) hg
        cases index with
        | const k => cases hg
        | reg | stack | addr => simp [Cell.index?, hg, hsame]
    dsimp only
    rw [hindex]

theorem inGpr_eq_ok {p : Operand} {base : Gpr} {d d' : Draft} (h : inGpr p d = .ok base d')
    (hregister : p.isRegister = false) : base = scratch := by
  rw [inGpr, hregister, if_neg Bool.false_ne_true] at h
  obtain ⟨_, _, -, ⟨⟩⟩ := Step.bind_eq_ok.mp h
  rfl

theorem computes_inGpr {p : Operand} :
    Computes S C (inGpr p) (fun s => S.Readable s ∧ S.Accessible C.frame s p)
    fun base s c => S.word? C.frame s p = some (c.reg base) ∧
      s.Keeps (Fetched p) (fun _ => False) (fun _ => False) c := by
  cases hregister : p.isRegister with
  | true =>
    rw [inGpr, if_pos hregister, ← bind_pure (gpr p)]
    refine (finds_gpr p).computes fun g hg => (computes_pure g).mono fun s _ hs => ⟨hs, ?_⟩
    rintro _ _ ⟨rfl, rfl, -⟩
    exact ⟨Site.word?_gpr hg, .refl _⟩
  | false =>
    rw [inGpr, if_neg (by rw [hregister]; exact Bool.false_ne_true), toScratch]
    have hfill : Computes S C (mov p (.reg scratch.register p.kind) false) _ _ := computes_fill
    refine hfill.bind (fun _ => computes_pure scratch) fun s _ c _ hc => ⟨trivial, ?_⟩
    rintro _ _ ⟨rfl, rfl, -⟩
    obtain ⟨flags, v, rfl, hv | ⟨r, hr, -⟩⟩ := hc
    · exact ⟨by rw [hv, reg_setReg_self],
        (keeps_flags flags).trans (keeps_setReg ⟨hregister, rfl⟩ v)⟩
    · rw [Site.isRegister_of_gpr? hr] at hregister
      cases hregister

/-- With the pointer in the register, the memory operand is at the address of the cell. -/
theorem Cell.Denotes.address_eq {mem : Mem} {base : Gpr} {s c : Machine} (h : cell.Denotes base mem)
    (hintact : cell.Intact) (hpointer : S.word? C.frame s cell.pointer = some (c.reg base))
    (hk : s.Keeps (Fetched cell.pointer) (fun _ => False) (fun _ => False) c) :
    cell.address? S C.frame s = some (S.place c (.plain mem)) := by
  obtain ⟨d, hd, haddress⟩ := h.address c
  have hplace : S.place c (.plain mem) = c.reg base + d := haddress
  rw [Cell.address?, hpointer, ← hintact.offset?_eq hk fun _ => id, hd, hplace]
  rfl

/-- Code uses a cell through its pointer. What the memory operand is belongs to the text of the
code, and where it is to the run. -/
theorem points_cell {f : Mem → Lower Nat} {Q : Mem → Assertion} {hazard : Hazard} {H : Mem → Hazard}
    (hintact : cell.Intact)
    (hf : ∀ base mem, cell.Denotes base mem → (cell.pointer.isRegister = false → base = scratch) →
      Points S C (f mem) fun pc pre new _ => S.Traps B (H mem) (Q mem) pc pre new)
    (hB : ∀ s c, S.Readable s → A s →
      s.Keeps (Fetched cell.pointer) (fun _ => False) (fun _ => False) c →
      B c ∧ ∀ mem, cell.address? S C.frame s = some (S.place c (.plain mem)) →
      H mem c = hazard s ∧ ∀ c', Q mem c c' → R s c') :
    Points S C (inGpr cell.pointer >>= fun base => cell.mem base >>= f) fun pc pre new _ =>
      S.Traps (fun s => S.Readable s ∧ S.Accessible C.frame s cell.pointer ∧ A s)
        hazard R pc pre new := by
  have hpointer : Computes S C (inGpr cell.pointer) _ _ := computes_inGpr
  refine (Lays.points_of (L := fun base pc pre new _ => ∃ mem, cell.Denotes base mem ∧
      S.Traps B (H mem) (Q mem) pc pre new) hpointer
    (p := fun base => cell.pointer.isRegister = false → base = scratch) (fun _ _ _ => inGpr_eq_ok)
      fun base hscratch =>
      (cell.finds_mem base).points fun mem hmem =>
        Points.mono (hf base mem hmem hscratch) fun _ _ _ _ _ _ h => ⟨mem, hmem, h⟩).mono ?_
  rintro pc pre _ post final - ⟨base, new₁, new₂, rfl, hlead, mem, hmem, htrap⟩
  refine hlead.traps htrap (fun s hs => ⟨rfl, hs.1, hs.2.1⟩) (fun s c hs _ hc => ?_)
    fun _ _ _ _ _ => False.elim
  obtain ⟨hb, hR⟩ := hB s c hs.1 hs.2.2 hc.2
  exact ⟨hb, hR mem (hmem.address_eq hintact hc.1 hc.2)⟩

/-- The cell faults where its memory operand does. -/
theorem segv?_cell {s c : Machine} {mem : Mem}
    (haddress : cell.address? S C.frame s = some (S.place c (.plain mem)))
    (hk : s.Keeps (Fetched cell.pointer) (fun _ => False) (fun _ => False) c) :
    c.segv? (S.place c (.plain mem)) n = (cell.address? S C.frame s).bind (s.segv? · n) := by
  rw [haddress, Option.bind_some, segv?, segv?, hk.faultsAt]

/-! ### Reads and writes -/

/-- The first access is the one that is recorded. The value goes on to a place in memory that is not
computed from the scratch register. -/
theorem touches_readCell {result : Operand} (hl : l.Valid) (hfixed : l.Fixed)
    (hresult : ¬ result.AddressedBy C.frame scratch) :
    Touches S C l result.kind.size (readCell l result) (S.Accessible C.frame · result) fun s c =>
      S.Obtains C.frame result
        (result.kind.read (s.memory.readWord (S.place s l) result.kind.size)) s c := by
  have hmemory : Touches S C l result.kind.size (do
      let pc ← loadGpr result.kind scratch l
      discard (storeGpr result.kind scratch (← location result))
      return pc) (S.Accessible C.frame · result) fun s c =>
        S.Obtains C.frame result
          (result.kind.read (s.memory.readWord (S.place s l) result.kind.size)) s c := by
    have hload : Touches S C l result.kind.size (loadGpr result.kind scratch l) (fun _ => True) _ :=
      touches_loadGpr hl hfixed
    have hstore : Lays S C (location result >>= fun l => discard (storeGpr result.kind scratch l))
        fun _ pre new _ =>
        S.Passes (S.Accessible C.frame · result)
          (fun s c => S.Obtains C.frame result (s.reg scratch) s c) pre new :=
      (finds_location result).lays_bind fun l' hl' =>
        ((touches_storeGpr hl'.2 (fixed_of_place? hl'.1)).mono fun s _ =>
          ⟨trivial, fun _ hputs => Site.obtains_of_puts hl'.1 hputs⟩).passes fun _ hs =>
            ⟨trivial, hs l' hl'.1⟩
    have hboth := Points.append hload fun _ => hstore
    simp only [bind_assoc] at hboth
    refine hboth.mono ?_
    rintro pc pre _ post final - ⟨new₁, new₂, rfl, htrap, hpasses⟩
    have hkeeps : ∀ (s : Machine) v, s.Keeps (· = scratch) (fun _ => False) (fun _ => False)
        (s.setReg scratch v) :=
      fun s v => keeps_setReg (G := (· = scratch)) rfl v
    refine ((htrap.mono fun s _ _ => ⟨trivial, rfl, fun _ => id⟩).append hpasses ?_).mono
      fun s _ hs => ⟨hs, rfl, ?_⟩
    · rintro s _ hloads hs rfl
      exact ⟨Site.loads_of_keeps hloads (hkeeps s _),
        hs.keeps_place (hkeeps s _) fun g hg heq => hresult (heq ▸ hg)⟩
    · rintro c ⟨_, rfl, hc⟩
      rw [reg_setReg_self] at hc
      exact hc.after (hkeeps s _) hresult
  unfold readCell
  split
  · exact (touches_load hl hfixed).mono fun _ _ => ⟨trivial, fun _ => id⟩
  · exact .of_fails (fails_unhandled _)
  · exact hmemory

theorem touches_writeCell {value : Operand} (hl : l.Valid) (hfixed : l.Fixed) :
    Touches S C l value.kind.size (writeCell l value)
      (fun s => S.Readable s ∧ S.Accessible C.frame s value)
      (Stored S C.frame value l) := by
  unfold writeCell
  dsimp only
  split
  · exact .of_fails (fails_unhandled _)
  rename_i hscratch
  have hmemory : storeNeedsScratch value = true → Touches S C l value.kind.size (do
      discard (loadGpr value.kind scratch (← location value))
      storeGpr value.kind scratch l) (fun s => S.Readable s ∧ S.Accessible C.frame s value)
        (Stored S C.frame value l) := by
    intro hneeds
    refine (finds_location value).points fun l' hl' => touches_throughScratch _ hl hfixed ?_ ?_
    · simpa [hneeds] using hscratch
    · refine Computes.discard ((computes_loadGpr hl'.2 (fixed_of_place? hl'.1)).mono fun s _ hs =>
        ⟨hs.2 l' hl'.1, fun _ _ hc => ⟨_, Site.value?_place hl'.1, hc⟩⟩)
  split
  · exact (touches_store hl hfixed).mono fun _ _ => ⟨trivial, fun _ => id⟩
  · refine (touches_constantToMemory hl hfixed fun hneeds => ?_).mono fun _ hs =>
      ⟨hs.1, fun _ => id⟩
    simpa [storeNeedsScratch, hneeds] using hscratch
  · cases value with
    | reg r kind => rename_i hne _; exact absurd rfl (hne r kind)
    | const c => rename_i hne; exact absurd rfl (hne c)
    | stack | addr => exact hmemory rfl

/-- The value of the cell has been read into the operand. -/
def Cell.ReadTo (cell : Cell) (S : Site) (frame : Frame)
    (result : Operand) : Assertion := fun s c =>
  ∃ a, cell.address? S frame s = some a ∧
    S.Obtains frame result (result.kind.read (s.memory.readWord a result.kind.size)) s c

/-- The value of the operand has been written to the cell. -/
def Cell.WrittenFrom (cell : Cell) (S : Site) (frame : Frame)
    (value : Operand) : Assertion := fun s c =>
  ∃ a v, cell.address? S frame s = some a ∧ S.value? frame s value = some v ∧
    s.Puts a value.kind.size v c

/-- The address of the cell is in the operand. -/
def Cell.LocatedBy (cell : Cell) (S : Site) (frame : Frame)
    (result : Operand) : Assertion := fun s c =>
  ∃ a, cell.address? S frame s = some a ∧ S.Obtains frame result a s c

/-- Code that reads a cell. -/
theorem points_readCell {result : Operand} (hintact : cell.Intact)
    (hresult : ¬ result.AddressedBy C.frame scratch) :
    Points S C (inGpr cell.pointer >>= fun base => cell.mem base >>=
      fun m => readCell (.plain m) result)
      fun pc pre new _ => S.Traps
        (fun s => S.Readable s ∧ S.Accessible C.frame s cell.pointer ∧
          S.Accessible C.frame s result)
        (fun s => (cell.address? S C.frame s).bind (s.segv? · result.kind.size))
          (cell.ReadTo S C.frame result) pc pre new := by
  refine points_cell hintact
    (fun _ _ hm _ => touches_readCell (valid_plain hm.encodable) (fun _ => hm.fixed) hresult)
    fun s c _ (hs : S.Accessible C.frame s result) hkeeps =>
      ⟨hs.keeps_place hkeeps fun g hg h => hresult (h.2 ▸ hg),
        fun mem haddress => ⟨segv?_cell haddress hkeeps, fun c' hc' => ⟨_, haddress, ?_⟩⟩⟩
  have hread : c.memory.readWord (S.place c (.plain mem)) result.kind.size =
      s.memory.readWord (S.place c (.plain mem)) result.kind.size :=
    Memory.readWord_congr fun _ _ => hkeeps.memory _ not_false
  rw [hread] at hc'
  exact hc'.after (hkeeps.mono (fun _ => And.right) (fun _ => id) fun _ => id) hresult

/-- Code that writes a cell. A value in memory is not read with the pointer in the scratch register,
and a value in that register is lost. -/
theorem points_writeCell {value : Operand} (hintact : cell.Intact) :
    Points S C (inGpr cell.pointer >>= fun base => cell.mem base >>=
      fun m => writeCell (.plain m) value)
      fun pc pre new _ => S.Traps
        (fun s => S.Readable s ∧ S.Accessible C.frame s cell.pointer ∧ S.Accessible C.frame s value)
        (fun s => (cell.address? S C.frame s).bind (s.segv? · value.kind.size))
        (fun s c => (cell.pointer.isRegister = false → gpr? value ≠ some scratch) →
          cell.WrittenFrom S C.frame value s c)
        pc pre new := by
  have hcell : ∀ base mem, cell.Denotes base mem →
    (cell.pointer.isRegister = false → base = scratch) →
      Touches S C (.plain mem) value.kind.size (writeCell (.plain mem) value)
        (fun s => S.Readable s ∧ (cell.pointer.isRegister = true → S.Accessible C.frame s value))
        fun s c => Stored S C.frame value (.plain mem) s c ∧
          (cell.pointer.isRegister = false → value.isMemory = false) := by
    intro base mem hm hscratch
    have hwrite : Touches S C (.plain mem) value.kind.size (writeCell (.plain mem) value) _ _ :=
      touches_writeCell (valid_plain hm.encodable) fun _ => hm.fixed
    cases hregister : cell.pointer.isRegister with
    | true => exact hwrite.mono fun s hs => ⟨⟨hs.1, hs.2 rfl⟩, fun _ h => ⟨h, nofun⟩⟩
    | false =>
      have huses : (Location.plain mem).mem.uses scratch = true := by
        simp [Location.plain, Mem.uses, hm.base, hscratch hregister]
      cases hneeds : storeNeedsScratch value with
      | true =>
        unfold writeCell
        simp only [hneeds, huses, Bool.and_self, if_true]
        exact .of_fails (fails_unhandled _)
      | false =>
        cases value with
        | reg | const => exact hwrite.mono fun s hs => ⟨⟨hs.1, Site.accessible_of_none rfl⟩,
          fun _ h => ⟨h, fun _ => rfl⟩⟩
        | stack | addr => cases hneeds
  refine points_cell (A := (S.Accessible C.frame · value)) hintact hcell
    fun s c hreadable hs hkeeps =>
    ⟨⟨hreadable.keeps hkeeps, fun hregister => hs.keeps_place hkeeps fun g _ h =>
      Bool.false_ne_true (h.1.symm.trans hregister)⟩, fun mem haddress =>
        ⟨segv?_cell haddress hkeeps, ?_⟩⟩
  rintro c' ⟨⟨v, hv, hputs⟩, hmemory⟩ hspares
  refine ⟨_, v, haddress, ?_,
    hputs.after (hkeeps.mono (fun _ => And.right) (fun _ => id) fun _ => id)⟩
  rw [← hv]
  refine (Site.value?_keeps hkeeps ?_ (fun _ _ => not_false) fun _ _ _ _ => not_false).symm
  rintro _ (hg | ⟨l, hl, -⟩) ⟨hregister, rfl⟩
  · exact hspares hregister hg
  · have := hmemory hregister
    cases value with
    | reg | const => cases hl
    | stack | addr => cases this

/-- Code that computes the address of a cell. -/
theorem points_lea {result : Operand} (hintact : cell.Intact) :
    Points S C (inGpr cell.pointer >>= fun base => cell.mem base >>=
      fun m => gpr result >>= fun g =>
        position >>= fun pc => emit (.lea true g m) >>= fun _ => pure pc)
      fun pc pre new _ => S.Traps (fun s => S.Readable s ∧ S.Accessible C.frame s cell.pointer ∧
        S.Accessible C.frame s result)
        (fun _ => none) (cell.LocatedBy S C.frame result) pc pre new := by
  refine points_cell (B := fun _ => True) (H := fun _ _ => none)
    (Q := fun mem c c' => (∃ g, gpr? result = some g) ∧
      S.Obtains C.frame result (S.place c (.plain mem)) c c') hintact
    (fun base mem hm _ => (finds_gpr result).points fun g hg =>
      points_emit (Instr.encodable_of_some rfl hm.encodable)
        (fun _ _ _ _ h => by cases h) fun c next _ _ =>
        executes_lea.mono fun _ c' hc => ?_) fun s c _ _ hkeeps =>
      ⟨trivial, fun mem haddress => ⟨rfl, fun c' ⟨⟨g, hg⟩, hc'⟩ => ⟨_, haddress, ?_⟩⟩⟩
  · rw [hc, effectiveAddress_next hm.fixed next 0]
    exact ⟨⟨g, hg⟩, Site.obtains_setReg hg _⟩
  · refine hc'.after (hkeeps.mono (fun _ => And.right) (fun _ => id) fun _ => id) ?_
    rintro ⟨l, hl, -⟩
    rw [Site.place?_of_gpr? hg] at hl
    cases hl

/-- Traps of a template where a cell is read. -/
theorem traps_readCell {result : Operand} {info : DebugInfo} (hintact : cell.Intact)
    (hresult : ¬ result.AddressedBy C.frame scratch) :
    Traps S C (inGpr cell.pointer >>= fun base => cell.mem base >>=
      fun m => readCell (.plain m) result >>= fun pc =>
      recordTrap pc info) (fun s => S.Readable s ∧ S.Accessible C.frame s cell.pointer ∧
        S.Accessible C.frame s result)
      (fun s => (cell.address? S C.frame s).bind (s.segv? · result.kind.size)) info := by
  have hlays := (points_readCell (S := S) hintact hresult).record info
  simp only [bind_assoc] at hlays
  exact hlays.mono fun _ _ _ _ _ _ ⟨pc, htraps, hhas⟩ =>
    ⟨pc, htraps.mono fun _ _ hs => ⟨hs, rfl, fun _ _ => trivial⟩, hhas⟩

/-- Traps where a cell is written. -/
theorem traps_writeCell {value : Operand} {info : DebugInfo} (hintact : cell.Intact) :
    Traps S C (inGpr cell.pointer >>= fun base => cell.mem base >>=
      fun m => writeCell (.plain m) value >>= fun pc =>
      recordTrap pc info) (fun s => S.Readable s ∧ S.Accessible C.frame s cell.pointer ∧
        S.Accessible C.frame s value)
      (fun s => (cell.address? S C.frame s).bind (s.segv? · value.kind.size)) info := by
  have hwrite : Points S C (inGpr cell.pointer >>= fun base => cell.mem base >>=
      fun m => writeCell (.plain m) value) _ :=
    points_writeCell hintact
  have hlays := hwrite.record info
  simp only [bind_assoc] at hlays
  exact hlays.mono fun _ _ _ _ _ _ ⟨pc, htraps, hhas⟩ =>
    ⟨pc, htraps.mono fun _ _ hs => ⟨hs, rfl, fun _ _ => trivial⟩, hhas⟩

end Accesses

end MachineCode
