import MachineCode.Proofs.Frames.Saving

/-! Taking a frame down. A return loads the saved registers, moves the stack pointer up by the size
of the frame, and goes to the address that is on top of the stack then. Together with the prologue
this brings back the registers of the caller, whatever the body has done in between to anything but
the stack pointer, the save area and the return address. -/
namespace MachineCode

open X64 Lower Chunk Machine

/-! ### Restored registers -/

namespace Machine

variable {s : Machine} {r r' : Register} {v : Word}

theorem savedWord_restored_gpr (s : Machine) (g : Gpr) (v : Word) :
    (s.restored g.register v).savedWord g.register = v := by
  simp

theorem savedWord_restored_xmm (s : Machine) (x : Xmm) (v : Word) :
    (s.restored x.register v).savedWord x.register = v := by
  rw [restored_xmm, savedWord_xmm, xmmReg_setXmm_self,
    BitVec.setWidth_setWidth_of_le v (by decide), BitVec.setWidth_eq]

/-- Nothing changes but the register itself. -/
theorem keeps_restored {A : Word → Prop} (s : Machine) (r : Register) (v : Word) :
    s.Keeps (fun g => g.register = r) (fun x => x.register = r) A (s.restored r v) := by
  unfold restored
  split
  · exact keeps_setReg (eq_register_of_gpr ‹_›).symm v
  · exact keeps_setXmm (eq_register_of_xmm ‹_›).symm _
  · exact .refl s

theorem savedWord_restored_of_ne (h : r' ≠ r) (s : Machine) (v : Word) :
    (s.restored r v).savedWord r' = s.savedWord r' :=
  (keeps_restored (A := fun _ => False) s r v).savedWord (fun _ hg hr => h (hg.symm.trans hr))
    fun _ hx hr => h (hx.symm.trans hr)

theorem aluAt_add_qword (a b : Word) (cf : Bool) : (aluAt .add .qword a b cf).1 = a + b := by
  change (a.setWidth 64 + b.setWidth 64 + 0#64).setWidth 64 = a + b
  simp

/-- The frame goes away again. -/
theorem executes_addStack (imm : Int32) (s : Machine) (next : Word) :
    Executes (Instr.aluImm .add true (.reg .rsp) imm).decoded next s fun c =>
      ∃ flags, c = { s with flags := flags }.setReg .rsp
        (s.reg .rsp + BitVec.ofInt 64 imm.toInt) := by
  have hne : AluOp.add ≠ .cmp := nofun
  refine (executes_alu hne (readsSource_imm imm.toInt .qword)).mono fun _ c hc => ?_
  obtain ⟨flags, rfl⟩ := hc
  refine ⟨flags, ?_⟩
  rw [merge_qword, aluAt_add_qword, low_qword]

end Machine

/-! ### Code that takes a frame down -/

/-- The frame of a method that was entered with the core `e` is still there, with the saved
registers in it. -/
structure Frame.StandsBelow (f : Frame) (e s : Machine) : Prop where
  rsp : s.reg .rsp = e.reg .rsp - BitVec.ofNat 64 f.size
  stowed : Stowed f e f.saved.registers.zipIdx s
  accessible : ∀ i < f.saved.registers.length,
    s.faultsAt (f.address (e.reg .rsp) (f.saved.slotOffset i)) 8 = false

/-- These registers have been restored. -/
structure Frame.Restores (f : Frame) (e : Machine) (rs : List (Register × Nat))
    (s c : Machine) : Prop where
  keeps : s.Keeps (fun g => g.register ∈ f.saved.registers)
    (fun x => x.register ∈ f.saved.registers) (fun _ => False) c
  words : ∀ x ∈ rs, c.savedWord x.1 = e.savedWord x.1

/-- The frame has been taken down. -/
structure Frame.Left (f : Frame) (e s c : Machine) : Prop where
  rsp : c.reg .rsp = e.reg .rsp
  words : ∀ r ∈ f.saved.registers, c.savedWord r = e.savedWord r
  memory : ∀ a, c.memory.get a = s.memory.get a
  ranges : c.protectedRanges = s.protectedRanges

section Code

variable {S : Site} {C : Context} {L : Label → Assertion} {e : Machine}

/-- A register comes back from its slot. -/
theorem runs_restore (hframe : C.frame.fault? = none) (hsize : C.frame.size < 2 ^ 31)
    (hrsp : ∀ r ∈ C.frame.saved.registers, r ≠ Gpr.rsp.register) {r : Register} {i : Nat}
    {rs : List (Register × Nat)} (hr : C.frame.saved.registers[i]? = some r) {j : Instr}
    (hj : savedInstr (.load true) (.movsLoad true) r
      (.based .rsp (Int32.ofNat (C.frame.saved.slotOffset i))) = .ok j) :
    Runs S C (emit j) (fun s c => C.frame.StandsBelow e s ∧ C.frame.Restores e rs s c)
      (fun _ s c => C.frame.StandsBelow e s ∧ C.frame.Restores e (rs ++ [(r, i)]) s c) L := by
  have hencodable : j.Encodable := by
    obtain ⟨g, -, rfl⟩ | ⟨x, -, rfl⟩ :=
      savedInstr_eq_ok hj <;> exact Instr.encodable_of_some rfl (encodable_based _ _)
  obtain ⟨hi, -⟩ := List.getElem?_eq_some_iff.mp hr
  obtain ⟨hslot, harea⟩ := Frame.slotOffset_add_le hframe hi
  have hmem : r ∈ C.frame.saved.registers := List.mem_of_getElem? hr
  refine runs_emit hencodable fun s c next hloads hc => ?_
  obtain ⟨hstands, hrestores⟩ := hc
  have hstack : c.reg .rsp = e.reg .rsp - BitVec.ofNat 64 C.frame.size :=
    (hrestores.keeps.gprs .rsp fun h => hrsp _ h rfl).trans hstands.rsp
  have haddress :=
    Frame.effectiveAddress hstack (by omega : C.frame.saved.slotOffset i < 2 ^ 31) next
  have hfaults := (hrestores.keeps.faultsAt _ 8).trans (hstands.accessible i hi)
  have hword :
      c.loaded (C.frame.address (e.reg .rsp) (C.frame.saved.slotOffset i)) 8 = e.savedWord r := by
    have hread := Memory.readWord_congr
      (a := C.frame.address (e.reg .rsp) (C.frame.saved.slotOffset i)) (n := 8)
      fun k _ => hrestores.keeps.memory _ id
    have hstowed := hstands.stowed (r, i) (List.mem_zipIdx_iff_getElem?.mpr hr)
    rw [loaded, hread, hstowed, BitVec.ofNat_toNat, BitVec.setWidth_eq]
  refine (executes_restore hj haddress hfaults).mono fun _ c' hc' => ?_
  rw [hword] at hc'
  subst hc'
  have hkeeps := keeps_restored (A := fun _ => False) c r (e.savedWord r)
  refine ⟨hloads.congr fun a => hkeeps.memory a id, hstands, ?_, fun x hx => ?_⟩
  · exact hrestores.keeps.trans
      (hkeeps.mono (fun g hg => hg ▸ hmem) (fun x hx => hx ▸ hmem) fun _ => id)
  · by_cases hxr : x.1 = r
    · rw [hxr]
      obtain ⟨g, rfl, -⟩ | ⟨x, rfl, -⟩ := savedInstr_eq_ok hj
      · exact savedWord_restored_gpr _ _ _
      · exact savedWord_restored_xmm _ _ _
    · have hold : x ∈ rs :=
        (List.mem_append.mp hx).resolve_right fun h => hxr (by rw [List.mem_singleton.mp h])
      exact (savedWord_restored_of_ne hxr c _).trans (hrestores.words x hold)

theorem runs_popFrame (hframe : C.frame.fault? = none) (hsize : C.frame.size < 2 ^ 31)
    (hrsp : ∀ r ∈ C.frame.saved.registers, r ≠ Gpr.rsp.register) :
    Runs S C popFrame (fun s c => c = s ∧ C.frame.StandsBelow e s)
      (fun _ s c => C.frame.Left e s c) L := by
  let J : List (Register × Nat) → Assertion :=
    fun rs s c => C.frame.StandsBelow e s ∧ C.frame.Restores e rs s c
  have hload : Runs S C (forSaved (.load true) (.movsLoad true)) (J [])
      (fun _ => J C.frame.saved.registers.zipIdx) L :=
    runs_forSaved fun rs r i j _ hr hj => runs_restore hframe hsize hrsp hr hj
  refine Runs.bind (hload.adapt fun s c _ hc => ⟨s, ?_, fun _ _ => id, fun _ _ => id⟩) fun _ => ?_
  · rw [hc.1]
    exact ⟨hc.2, .refl s, nofun⟩
  · have hleft : ∀ s c c', J C.frame.saved.registers.zipIdx s c →
      c.Keeps (· = .rsp) (fun _ => False) (fun _ => False) c' →
        c'.reg .rsp = c.reg .rsp + BitVec.ofNat 64 C.frame.size → C.frame.Left e s c' := by
      intro s c c' hc hkeeps hstack
      obtain ⟨hstands, hrestores⟩ := hc
      refine ⟨?_, fun r hr => ?_, fun a => (hkeeps.memory a id).trans (hrestores.keeps.memory a id),
        hkeeps.ranges.trans hrestores.keeps.ranges⟩
      · rw [hstack, hrestores.keeps.gprs .rsp fun h => hrsp _ h rfl, hstands.rsp,
          BitVec.sub_add_cancel]
      · obtain ⟨i, hi⟩ := List.getElem?_of_mem hr
        rw [hkeeps.savedWord_of_ne (hrsp r hr)]
        exact hrestores.words (r, i) (List.mem_zipIdx_iff_getElem?.mpr hi)
    refine finds_get.runs fun d hd => ?_
    rw [hd.frame]
    dsimp only
    split
    · refine runs_emit (Instr.encodable_of_none rfl) fun s c next hloads hc => ?_
      refine (executes_addStack _ c next).mono fun _ c' hc' => ?_
      obtain ⟨flags, rfl⟩ := hc'
      refine ⟨hloads,
        hleft s c _ hc ((keeps_flags flags).trans (keeps_setReg (G := (· = .rsp)) rfl _)) ?_⟩
      rw [reg_setReg_self, Int32.toInt_ofNat_of_lt hsize, BitVec.ofInt_natCast]
    · rename_i hempty
      refine runs_pure () fun s c _ hc => hleft s c c hc (.refl c) ?_
      rw [Nat.eq_zero_of_not_pos hempty]
      exact (BitVec.add_zero _).symm

/-- A return takes the frame down and ends in its last instruction. -/
theorem lays_ret (hframe : C.frame.fault? = none) (hsize : C.frame.size < 2 ^ 31)
    (hrsp : ∀ r ∈ C.frame.saved.registers, r ≠ Gpr.rsp.register) :
    Lays S C (lower (.ret none)) fun _ pre new final => ∃ pop, new = pop ++ [.instr .ret none] ∧
      S.Leads (fun s c => c = s ∧ C.frame.StandsBelow e s) (C.frame.Left e)
        noExit pre pop final := by
  have hpop : Runs S C popFrame (fun s c => c = s ∧ C.frame.StandsBelow e s)
      (fun _ => C.frame.Left e) noExit :=
    runs_popFrame hframe hsize hrsp
  refine (Lays.bind hpop fun _ => lays_emit (Instr.encodable_of_none rfl)).mono
    fun _ pre new post final _ h => ?_
  obtain ⟨_, pop, last, rfl, hleads, rfl⟩ := h
  exact ⟨pop, rfl, hleads⟩

end Code

/-! ### The return -/

namespace Machine

variable {machine : Machine} {a : Word} {n : Nat}

/-- A return goes to the address on top of the stack, and takes it off. -/
theorem execute_ret (next : Word) (h : machine.faultsAt (machine.reg .rsp) 8 = false) : ∃ machine',
    execute .ret next machine = .ok () machine' ∧
    machine'.rip = machine.loaded (machine.reg .rsp) 8 ∧
      machine'.core = machine.core.setReg .rsp (machine.reg .rsp + 8) := by
  have hcheck : machine.core.faultsAt (machine.reg .rsp) 8 = false := h
  obtain ⟨_, machine', hload, ⟨rfl, hcore⟩, -⟩ := yields_loadBytes hcheck machine rfl
  have hpop : pop machine = .ok (machine.loaded (machine.reg .rsp) 8)
      (machine'.setReg .rsp (machine'.reg .rsp + 8)) :=
    Step.bind_of_ok hload
  refine ⟨_, (Step.bind_of_ok hpop).trans rfl, rfl, ?_⟩
  change machine'.core.setReg .rsp (machine'.core.reg .rsp + 8) = _
  rw [hcore]
  rfl

end Machine

theorem Site.Hosts.step_ret {S : Site} {P : Machine → Prop} {machine : Machine}
    {pre post : List Chunk} {final : Draft} (h : S.Hosts (pre ++ .instr .ret none :: post) final)
    (hat : S.Stands (extent pre) P machine)
    (hfaults : machine.faultsAt (machine.reg .rsp) 8 = false) :
    ∃ machine', Machine.step machine = .ok () machine' ∧
      machine'.rip = machine.loaded (machine.reg .rsp) 8 ∧
      machine'.core = machine.core.setReg .rsp (machine.reg .rsp + 8) := by
  let fetched := machine.fetched Instr.ret.decoded Instr.ret.encode.length
  have hfetched : fetched.faultsAt (fetched.reg .rsp) 8 = false := hfaults
  obtain ⟨machine', hrun, hrip, hcore⟩ :=
    execute_ret (S.addressOf (extent pre + Instr.ret.encode.length)) hfetched
  exact ⟨machine', (h.step_plain hat).trans hrun, hrip, hcore⟩

/-! ### Prologue and return of an installed method -/

/-- Between the two states the stack pointer, the save area and the return address have stayed, and
the latter two can be accessed. -/
structure Frame.Kept (f : Frame) (m m' : Machine) : Prop where
  rsp : m'.reg .rsp = m.reg .rsp
  saved : ∀ o, f.saved.offset ≤ o → o < f.saved.offset + f.saved.size →
    m'.memory.get (m.reg .rsp + BitVec.ofNat 64 o) = m.memory.get (m.reg .rsp + BitVec.ofNat 64 o)
  returnAddress : ∀ o, f.size ≤ o → o < f.size + 8 →
    m'.memory.get (m.reg .rsp + BitVec.ofNat 64 o) = m.memory.get (m.reg .rsp + BitVec.ofNat 64 o)
  slots : ∀ i < f.saved.registers.length,
    m'.faultsAt (m.reg .rsp + BitVec.ofNat 64 (f.saved.slotOffset i)) 8 = false
  top : m'.faultsAt (m.reg .rsp + BitVec.ofNat 64 f.size) 8 = false

/-- The frame is still there after what keeps it. -/
theorem Entered.standsBelow {t : Target} {f : Frame} {e m m' : Machine} (h : Entered t f e m)
    (hkept : f.Kept m m') (hframe : f.fault? = none) : f.StandsBelow e m' := by
  refine ⟨hkept.rsp.trans h.rsp, fun x hx => ?_, fun i hi => ?_⟩
  · obtain ⟨hslot, -⟩ := Frame.slotOffset_add_le hframe (Frame.lt_of_mem_zipIdx hx)
    have hstart : f.saved.offset ≤ f.saved.slotOffset x.2 := Nat.le_add_right _ _
    refine (Memory.readWord_congr fun k hk => ?_).trans (h.stowed x hx)
    rw [Frame.address, ← h.rsp, BitVec.add_assoc, ← BitVec.ofNat_add]
    exact hkept.saved _ (by omega) (by omega)
  · rw [Frame.address, ← h.rsp]
    exact hkept.slots i hi

namespace Installation

variable {I : Installation} {body start stop : Nat} {e m m' : Machine}

/-- A prologue does not store to the return address. -/
theorem HasPrologue.not_entryByte (h : I.HasPrologue body) (hpage : 8 ≤ I.target.pageSize)
    (sp : Word) {k : Nat} (hk : k < 8) :
    ¬ EntryByte I.target I.source.frame sp (sp + BitVec.ofNat 64 k) := by
  have hsize := h.size_lt
  have hsp := sp.isLt
  rintro ⟨a, n, hstore, hlt⟩
  cases hstore with
  | @touch i hbang hi hle =>
    have hreach := h.touch_le hbang (by omega) hi hle
    have hfar : 8 ≤ i * I.target.pageSize := Nat.le_trans hpage (Nat.le_mul_of_pos_left _ hi)
    simp only [BitVec.toNat_sub, BitVec.toNat_add, BitVec.toNat_ofNat] at hlt
    omega
  | fill hzap hi =>
    simp only [Frame.address, BitVec.toNat_sub, BitVec.toNat_add, BitVec.toNat_ofNat] at hlt
    omega
  | save hi =>
    obtain ⟨hslot, harea⟩ := Frame.slotOffset_add_le I.fault?_frame hi
    simp only [Frame.address, BitVec.toNat_sub, BitVec.toNat_add, BitVec.toNat_ofNat] at hlt
    omega

/-- What is on top of the stack once the frame is gone is what has been there on entry. -/
theorem HasPrologue.readWord_top (h : I.HasPrologue body) (hpage : 8 ≤ I.target.pageSize)
    (hentered : Entered I.target I.source.frame e m) (hkept : I.source.frame.Kept m m') :
    m'.memory.readWord (e.reg .rsp) 8 = e.memory.readWord (e.reg .rsp) 8 := by
  refine Memory.readWord_congr fun k hk => ?_
  refine Eq.trans ?_ (hentered.keeps.memory _ (h.not_entryByte hpage _ hk))
  have haddress :
      e.reg .rsp + BitVec.ofNat 64 k = m.reg .rsp + BitVec.ofNat 64 (I.source.frame.size + k) := by
    rw [hentered.rsp, BitVec.ofNat_add, ← BitVec.add_assoc, BitVec.sub_add_cancel]
  rw [haddress]
  exact hkept.returnAddress _ (by omega) (by omega)

/-- The code of a return takes the frame down and goes to the address on top of the stack. -/
theorem HasCode.exists_return (h : I.HasCode (.ret none) start stop)
    (hsize : I.source.frame.size < 2 ^ 31)
    (hrsp : ∀ r ∈ I.source.frame.saved.registers, r ≠ Gpr.rsp.register)
    (hloaded : m.Loaded I.base I.image) (hrip : m.rip = I.base + BitVec.ofNat 64 start)
    (hstands : I.source.frame.StandsBelow e m) (htop : m.faultsAt (e.reg .rsp) 8 = false) :
    ∃ m', m.Walks (I.site.Span start stop) m' ∧
      m'.rip = m.loaded (e.reg .rsp) 8 ∧ m'.reg .rsp = e.reg .rsp + 8 ∧
      ∀ r ∈ I.source.frame.saved.registers, m'.savedWord r = e.savedWord r := by
  obtain ⟨pre, new, post, final, hhosts, -, ⟨pop, rfl, hleads⟩, rfl, rfl⟩ := h.hosts
    (K := fun pre new final => ∃ pop, new = pop ++ [.instr .ret none] ∧
      I.site.Leads (fun s c => c = s ∧ I.source.frame.StandsBelow e s) (I.source.frame.Left e)
        noExit pre pop final)
    fun C hframe _ => hframe ▸ lays_ret (hframe ▸ I.fault?_frame) (hframe ▸ hsize) (hframe ▸ hrsp)
  have hat :
      I.site.Stands (extent pre) (fun c => c = m.core ∧ I.source.frame.StandsBelow e m.core) m :=
    ⟨hloaded, hrip, rfl, hstands.rsp, hstands.stowed, hstands.accessible⟩
  obtain ⟨m₁, hwalks, hend | ⟨l, p, -, hexit⟩⟩ := hleads m.core m hat
  · have hleft := hend.core
    have hstack : m₁.reg .rsp = e.reg .rsp := hleft.rsp
    have hhosts' :
        I.site.Hosts ((pre ++ pop) ++ .instr .ret none :: post) final := by simpa using hhosts
    have hranges : m₁.protectedRanges = m.protectedRanges := hleft.ranges
    have hfaults : m₁.faultsAt (m₁.reg .rsp) 8 = false := by
      rw [hstack, faultsAt, hranges]
      exact htop
    obtain ⟨m₂, hrun, hrip₂, hcore⟩ := hhosts'.step_ret hend hfaults
    have hinside :
        I.site.Span (extent (pre ++ pop)) (extent (pre ++ (pop ++ [.instr .ret none]))) m₁.rip :=
      ⟨_, Nat.le_refl _, by
        simpa using Instr.length_pos (Instr.encodable_of_none rfl : Instr.ret.Encodable), hend.rip⟩
    refine ⟨m₂, ?_, ?_, ?_, fun r hr => ?_⟩
    · exact (Site.Span.grow (Nat.le_refl _) (by simp) hwalks).trans
        (.step (hinside.mono (by simp) (Nat.le_refl _)) hrun (.refl _))
    · rw [hrip₂, hstack, loaded, loaded]
      exact congrArg (BitVec.ofNat 64) (Memory.readWord_congr fun _ _ => hleft.memory _)
    · refine (congrArg (reg · .rsp) hcore).trans ((reg_setReg_self _ _ _).trans ?_)
      exact congrArg (· + 8) hstack
    · have hkeeps : m₁.core.Keeps (· = .rsp) (fun _ => False) (fun _ => False) m₂.core :=
        hcore ▸ keeps_setReg (G := (· = .rsp)) rfl _
      exact (hkeeps.savedWord_of_ne (hrsp r hr)).trans (hleft.words r hr)
  · exact hexit.core.elim

end Installation

/-- Prologue and return are inverse: whatever the body does to anything but the stack pointer, the
save area and the return address, a return goes back with the stack pointer and the saved registers
of the caller. If that is asked for, the body finds its frame filled, apart from the save area. -/
theorem return_undoes_prologue (I : Installation) (hpage : 8 ≤ I.target.pageSize)
    (hrsp : ∀ r ∈ I.source.frame.saved.registers, r ≠ Gpr.rsp.register) :
    ∃ body, I.HasPrologue body ∧ ∀ machine : Machine, machine.Loaded I.base I.image →
    machine.rip = I.base →
      I.site.CanEnter I.target I.source.frame machine →
      ∃ m₁, machine.RunsTo (I.base + BitVec.ofNat 64 body) m₁ ∧
        m₁.Loaded I.base I.image ∧ m₁.reg .rsp =
          machine.reg .rsp - BitVec.ofNat 64 I.source.frame.size ∧
        m₁.protectedRanges = machine.protectedRanges ∧
        (I.target.options.zapStackOnEntry = true → ∀ i, 4 * i + 4 ≤ I.source.frame.size →
          I.source.frame.Unsaved i →
          m₁.memory.readWord (m₁.reg .rsp + BitVec.ofNat 64 (4 * i)) 4 = 0xC1C1C1C1) ∧
        ∀ start stop m₂, I.HasCode (.ret none) start stop → m₂.Loaded I.base I.image →
          m₂.rip = I.base + BitVec.ofNat 64 start → I.source.frame.Kept m₁ m₂ →
          ∃ m₃, m₂.Walks (I.site.Span start stop) m₃ ∧
            m₃.rip = BitVec.ofNat 64 (machine.memory.readWord (machine.reg .rsp) 8) ∧
            m₃.reg .rsp = machine.reg .rsp + 8 ∧
            (∀ g : Gpr, g.register ∈ I.source.frame.saved.registers → m₃.reg g = machine.reg g) ∧
            ∀ x : Xmm, x.register ∈ I.source.frame.saved.registers →
              (m₃.xmmReg x).setWidth 64 = (machine.xmmReg x).setWidth 64 := by
  obtain ⟨body, hprologue⟩ := I.exists_hasPrologue
  refine ⟨body, hprologue, fun machine hloaded hrip hcan => ?_⟩
  obtain ⟨m₁, hrun, hloaded₁, hentered⟩ := hprologue.exists_run (by omega) hrsp hloaded hrip hcan
  refine ⟨m₁, hrun, hloaded₁, hentered.rsp, hentered.keeps.ranges, fun hzap i hi hunsaved => ?_, ?_⟩
  · rw [hentered.rsp]
    exact hentered.filled hzap i hi hunsaved
  · intro start stop m₂ hcode hloaded₂ hrip₂ hkept
    have htop : m₂.faultsAt (machine.reg .rsp) 8 = false := by
      have hkeptTop := hkept.top
      rwa [hentered.rsp, BitVec.sub_add_cancel] at hkeptTop
    obtain ⟨m₃, hwalks, hrip₃, hrsp₃, hwords⟩ :=
      hcode.exists_return hprologue.size_lt hrsp hloaded₂ hrip₂
      (hentered.standsBelow hkept I.fault?_frame) htop
    refine ⟨m₃, hwalks, ?_, hrsp₃, fun g hg => ?_, fun x hx => ?_⟩
    · rw [hrip₃, loaded, hprologue.readWord_top hpage hentered hkept]
    · have hword := hwords _ hg
      rwa [savedWord_gpr, savedWord_gpr] at hword
    · have hword := hwords _ hx
      rwa [savedWord_xmm, savedWord_xmm] at hword

/-- The body overwrites `rbx`, and the caller finds it again. -/
theorem exists_returned :
    ∃ (I : Installation) (body : Nat) (machine m₁ m₂ m₃ : Machine), I.HasPrologue body ∧
    machine.rip = I.base ∧ machine.reg .rbx = 0x3333 ∧
    machine.RunsTo (I.base + BitVec.ofNat 64 body) m₁ ∧
    m₁.memory.readWord (m₁.reg .rsp) 4 = 0xC1C1C1C1 ∧ m₂.reg .rbx = 0 ∧ m₂.reg .rsp = m₁.reg .rsp ∧
    (∃ inside, m₂.Walks inside m₃) ∧ m₃.rip = returnSentinel ∧ m₃.reg .rsp = 0x800008 ∧
    m₃.reg .rbx = 0x3333 := by
  let target : Target := ⟨{ Options.standard with zapStackOnEntry := true }, ⟨true, true⟩, 4096⟩
  let source : MethodSource :=
    ⟨"test", none, .withSize 64 [Gpr.rbx.register, Xmm.register ⟨6⟩], [], [.ret none]⟩
  obtain ⟨I, htarget, hsource, hbase, hlow, hhigh⟩ :=
    Installation.exists_installed target source 0x10000000 (by decide +kernel)
  let caller : Machine := (Machine.initial.setReg .rsp 0x800000).setReg .rbx 0x3333
  let machine : Machine := (I.enter caller 0).stored 0x800000 8 returnSentinel
  have hbelow : (0x800000 : Word).toNat + 8 ≤ I.base.toNat := by
    rw [hbase]
    decide
  have hloaded : machine.Loaded I.base I.image :=
    (Site.clear_of_below hbelow hhigh : I.site.Clear 0x800000 8).loads
      (Installation.loaded_enter caller 0)
      (keeps_stored (G := fun _ => False) (X := fun _ => False) (fun _ => id) _)
  have hrip : machine.rip = I.base := BitVec.add_zero _
  have hpage : I.target.pageSize = 4096 := by rw [htarget]
  have hpages : I.target.touchedPages I.source.frame.size = 3 := by
    rw [htarget, hsource]
    decide
  have hframe : I.source.frame = .withSize 64 [Gpr.rbx.register, Xmm.register ⟨6⟩] := by
    rw [hsource]
  have hroom : nullGuard.toNat + 3 * 4096 ≤ (machine.reg .rsp).toNat ∧
      nullGuard.toNat + 64 ≤ (machine.reg .rsp).toNat := by
    change nullGuard.toNat + 3 * 4096 ≤ (0x800000 : Word).toNat ∧
      nullGuard.toNat + 64 ≤ (0x800000 : Word).toNat
    decide
  have hcan : I.site.CanEnter I.target I.source.frame machine :=
    Site.canEnter_of_room rfl (by rw [hpage]; decide) I.fault?_frame
      (by rw [hpages, hpage]; exact hroom.1)
      (by rw [hframe]; exact hroom.2) (Nat.le_trans (Nat.le_add_right _ 8) hbelow) hhigh
  obtain ⟨body, hprologue, hruns⟩ :=
    return_undoes_prologue I (by rw [hpage]; decide) (by rw [hframe]; decide)
  obtain ⟨m₁, hrun, hloaded₁, hstack, hranges, hfilled, hreturn⟩ := hruns machine hloaded hrip hcan
  obtain ⟨start, stop, hcode⟩ :=
    I.exists_hasCode (by simp [hsource, source] : .ret none ∈ I.source.ops)
  let m₂ : Machine := { m₁.setReg .rbx 0 with rip := I.base + BitVec.ofNat 64 start }
  have hstack₂ : m₂.reg .rsp = m₁.reg .rsp := reg_setReg_of_ne (by decide)
  have hfaults : ∀ a n, m₂.faultsAt a n = machine.faultsAt a n := fun a n =>
    congrArg (fun rs : List AddressRange => decide (a < nullGuard) ||
      rs.any fun r => a < r.stop && r.start < a + BitVec.ofNat 64 n) hranges
  have hkept : I.source.frame.Kept m₁ m₂ := by
    refine ⟨hstack₂, fun _ _ _ => rfl, fun _ _ _ => rfl, fun i hi => ?_, ?_⟩
    · rw [hfaults, hstack]
      exact (hcan _ _ (.save hi)).1
    · rw [hfaults, hstack, BitVec.sub_add_cancel]
      rfl
  obtain ⟨m₃, hwalks, hrip₃, hstack₃, hgprs, -⟩ := hreturn start stop m₂ hcode hloaded₁ rfl hkept
  refine ⟨I, body, machine, m₁, m₂, m₃, hprologue, hrip, rfl, hrun, ?_, reg_setReg_self _ _ _,
    hstack₂, ⟨_, hwalks⟩, ?_, hstack₃, ?_⟩
  · have hword :=
      hfilled (by rw [htarget]) 0 (by rw [hframe]; decide) (by rw [hframe]; exact .inl (by decide))
    rwa [Nat.mul_zero, BitVec.add_zero] at hword
  · exact hrip₃.trans (congrArg (BitVec.ofNat 64) (Memory.readWord_writeWord _ _ (by decide) _))
  · exact hgprs .rbx (by rw [hframe]; decide)

end MachineCode
