import MachineCode.Proofs.Effects.Arithmetic

/-! The effects of branches, switches, conditional moves, frame code and calls. -/
namespace MachineCode.Lower

open X64

variable {C : Context} {e : Effect}

/-! ### Branches -/

theorem does_branch {cond : Option Condition} {target : Label} (h : e.refers target) :
    Does C e (branch cond target) := by
  cases cond with
  | none => exact does_jmp h
  | some cond => exact does_jcc h

theorem does_floatBranch {cond : Condition} {target unordered : Label} (h : e.refers target)
    (hunordered : e.refers unordered) : Does C e (floatBranch cond target unordered) :=
  (does_jcc hunordered).andThen fun _ => does_jcc h

theorem does_emitLeaRelative {dst : Gpr} {distance : Int} (h : e.gprs dst) :
    Does C e (emitLeaRelative dst distance) :=
  does_memory rfl (encodable_rip _) rfl (e.admits_gpr h)

/-- A switch overwrites its index and jumps through the scratch register. -/
theorem does_tableSwitch {index : Operand} {low : Int32} {targets : List Label} {default : Label}
    (htargets : ∀ l ∈ targets, e.refers l) (hdefault : e.refers default) (hleaves : e.leaves)
    (h : e.Sets index) : Does C e (tableSwitch index low targets default) := by
  unfold tableSwitch
  refine (finds_gpr index).lowers.bind fun idx hgpr => ?_
  have hres : e.gprs idx := gprs_of_gpr? h hgpr
  split
  · exact lowers_unhandled _
  · rename_i hidx
    split
    · exact does_jmp hdefault
    · rename_i hne
      split
      · exact lowers_unhandled _
      · rename_i span hspan
        split
        · exact lowers_unhandled _
        · rename_i high hhigh
          have hcount : high.toInt - low.toInt + 1 = targets.length := by
            have hpos : 0 < targets.length := by
              rw [List.isEmpty_iff] at hne
              exact List.length_pos_iff.mpr hne
            have := toInt_of_int32? hspan
            have := toInt_of_int32? hhigh
            omega
          have hload : Does C e
              (emit (.extend .signDword idx (.mem (.indexed scratch idx 2 0)))) :=
            does_memory rfl (encodable_indexed fun h => hidx (.inr h))
              (Instr.footprint_extend _ _ _) (e.admits_gpr hres)
          extract_lets address jump behind
          have hbehind : ∀ u, Does C e (behind u) := by
            intro u
            refine does_cmpImm.andThen fun _ => (does_jcc hdefault).andThen fun _ =>
              finds_position.lowers.andThen fun p =>
                (does_emitLeaRelative e.scratch).andThen fun _ => ?_
            dsimp only [jump]
            rw [tableJump, List.forM_eq_forM, List.forM_cons, List.forM_cons, List.forM_cons,
              List.forM_nil, bind_assoc, bind_assoc, bind_assoc, pure_bind]
            refine hload.andThen fun _ =>
              (does_plain rfl rfl (e.admits_gpr e.scratch)).andThen fun _ => ?_
            exact does_action (.table low high targets) ⟨hleaves, htargets, hcount⟩ rfl
          split
          · exact (does_plain rfl rfl (e.admits_gpr hres)).andThen hbehind
          · exact (does_plain rfl rfl (e.admits_gpr hres)).andThen hbehind

/-! ### Conditional moves -/

theorem does_preloaded (second result : Operand) : Does C e (preloaded second result) := by
  unfold preloaded
  split
  · exact does_pure _
  · dsimp only
    split
    · refine (finds_location second).lowers.andThen fun l => ?_
      split
      · exact (does_toScratch second).andThen fun _ => does_pure _
      · exact does_pure _
    · exact does_pure _

theorem does_cmov {cond : Cond} {wide : Bool} {dst : Gpr} {src : Operand} (h : e.gprs dst) :
    Does C e (cmov cond wide dst src) := by
  unfold cmov
  split
  · exact (finds_gpr _).lowers.andThen fun _ => does_plain rfl rfl (e.admits_gpr h)
  · exact (finds_location _).lowers.bind fun l hl =>
      does_at (i := fun m => .cmov cond wide dst (.mem m)) hl.2 (fun _ => rfl) rfl (e.admits_gpr h)

theorem does_selectByBranch {s : Selection} {second result : Operand}
    {unorderedIsTrue : Option Bool} (hfresh : e.Fresh C.labels) (h : Receives C e second result) :
    Does C e (selectByBranch s second unorderedIsTrue result) := by
  unfold selectByBranch
  refine lowers_newLabel.bind fun skip hskip => ?_
  have hrefers : e.refers skip := hfresh.refers skip hskip
  extract_lets keepFirst last
  have hlast : ∀ u, Does C e (last u) := fun _ =>
    (does_mov h).andThen fun _ => does_bind (hfresh.binds skip hskip)
  split
  · refine lowers_newLabel.bind fun move hmove => ?_
    refine Lowers.andThen (does_jcc ?_) fun _ => (does_jcc hrefers).andThen fun _ =>
      (does_bind (hfresh.binds move hmove)).andThen hlast
    split
    · exact hrefers
    · exact hfresh.refers move hmove
  · exact (does_jcc hrefers).andThen hlast

/-- What follows the move of the first value. -/
theorem does_secondMove {sel : Selection} {second result : Operand} {unorderedIsTrue : Option Bool}
    (hfresh : e.Fresh C.labels) (h : Receives C e second result) : Does C e (do
      let hasCmov := (← get).target.features.cmov && unorderedIsTrue.isNone
      match gpr? result, cmovWide? second with
      | some res, some wide =>
        if hasCmov then cmov (.ofCondition sel.takeSecond) wide res second
        else selectByBranch sel second unorderedIsTrue result
      | _, _ => selectByBranch sel second unorderedIsTrue result) := by
  refine lowers_get.andThen fun d => ?_
  dsimp only
  split
  · rename_i hres _
    split
    · exact does_cmov (gprs_of_gpr? h.register hres)
    · exact does_selectByBranch hfresh h
  · exact does_selectByBranch hfresh h

theorem does_condMove {cond : Condition} {unorderedIsTrue : Option Bool}
    {trueValue falseValue result : Operand} (hfresh : e.Fresh C.labels)
    (h : ∀ src, Receives C e src result) :
    Does C e (condMove cond unorderedIsTrue trueValue falseValue result) :=
  (does_preloaded _ _).andThen fun second => (does_mov (h _)).andThen fun _ =>
    does_secondMove hfresh (h second)

/-! ### The frame -/

theorem does_open_plain {i : Instr} (h : e.Open) (hi : i.mem? = none) : Does C e (emit i) :=
  does_plain hi rfl (h.admits _)

theorem does_open_memory {i : Instr} {m : Mem} (h : e.Open) (hi : i.mem? = some m)
    (hm : m.Encodable) : Does C e (emit i) :=
  does_memory hi hm rfl (h.admits _)

theorem does_bangPages (h : e.Open) (page count i : Nat) : Does C e (bangPages page count i) := by
  induction count generalizing i with
  | zero => exact does_pure ()
  | succ count ih =>
    exact (finds_displacement32 _).lowers.andThen fun disp =>
      (does_open_memory h rfl (encodable_based _ _)).andThen fun _ => ih (i + 1)

theorem does_bangStack (h : e.Open) : Does C e bangStack :=
  lowers_get.andThen fun _ => does_bangPages h _ _ _

theorem does_forSaved {general : Gpr → Mem → Instr} {floating : Xmm → Mem → Instr} (h : e.Open)
    (hg : ∀ r m, (general r m).mem? = some m) (hf : ∀ x m, (floating x m).mem? = some m) :
    Does C e (forSaved general floating) := by
  unfold forSaved
  refine lowers_get.andThen fun d => does_forM fun x _ => ?_
  have hfinds : ∀ m : Mem, m.Encodable →
      Finds C (ofExcept (savedInstr general floating x.1 m)) Instr.Encodable := by
    intro m hm
    unfold savedInstr
    split
    · exact finds_pure (Instr.encodable_of_some (hg _ m) hm)
    · exact finds_pure (Instr.encodable_of_some (hf _ m) hm)
    · exact finds_throw rfl
  exact (hfinds _ (encodable_based _ _)).lowers.bind fun i hi =>
    does_action (.instr (.emit i)) ⟨hi, h.admits _⟩ rfl

theorem does_zap (h : e.Open) (offset : Nat) : Does C e (emit (zapInstr offset)) :=
  does_open_memory h rfl (encodable_based .rsp (Int32.ofNat offset))

theorem does_pushFrame (h : e.Open) : Does C e pushFrame := by
  have hsave : Does C e (forSaved (.store true) (.movsStore true)) :=
    does_forSaved h (fun _ _ => rfl) fun _ _ => rfl
  unfold pushFrame
  refine lowers_get.andThen fun d => ?_
  have hzap : Does C e (if d.target.options.zapStackOnEntry then do
      (List.range ((d.frame.size + 3) / 4)).forM fun i => emit (zapInstr (4 * i))
      forSaved (.store true) (.movsStore true)
    else forSaved (.store true) (.movsStore true)) := by
    split
    · exact (does_forM fun i _ => does_zap h (4 * i)).andThen fun _ => hsave
    · exact hsave
  simp only []
  split
  · split
    · exact Lowers.andThen (p := fun _ => True) (lowers_throw rfl) fun _ => hzap
    · exact (does_open_plain h rfl).andThen fun _ => hzap
  · exact hzap

theorem does_popFrame (h : e.Open) : Does C e popFrame := by
  unfold popFrame
  refine (does_forSaved h (fun _ _ => rfl) fun _ _ => rfl).andThen fun _ =>
    lowers_get.andThen fun d => ?_
  dsimp only
  split
  · exact does_open_plain h rfl
  · exact does_pure ()

theorem does_ret (h : e.Open) (value : Option Operand) : Does C e (ret value) := by
  have hpop : ∀ u : Unit, Does C e (do popFrame; emit .ret) := fun _ =>
    (does_popFrame h).andThen fun _ => does_open_plain h rfl
  cases value with
  | none => exact hpop ()
  | some value =>
    exact (does_mov (receives_reg (h.overwrites _))).andThen hpop

theorem does_frameAddress {res : Gpr} (h : e.gprs res) (offset : Nat) :
    Does C e (frameAddress res offset) := by
  refine (finds_stackMem offset).lowers.bind fun m hm => ?_
  obtain ⟨disp, -, rfl⟩ := hm
  exact does_memory rfl (encodable_based _ _) rfl (e.admits_gpr h)

theorem does_monitorAddress {index : Nat} {result : Operand} (h : e.Sets result) :
    Does C e (monitorAddress index result) := by
  refine does_gprResult h fun res hres _ => lowers_get.andThen fun d => ?_
  dsimp only
  split
  · exact lowers_unhandled _
  · exact does_frameAddress hres _

theorem does_stackAllocate {block : Nat} {result : Operand} (h : e.Sets result) :
    Does C e (stackAllocate block result) := by
  refine does_gprResult h fun res hres _ => lowers_get.andThen fun d => ?_
  dsimp only
  split
  · exact lowers_unhandled _
  · exact does_frameAddress hres _

/-! ### Calls -/

theorem does_directCall {target : CallTarget} {info : Option DebugInfo} (hleaves : e.leaves)
    (hinfo : ∀ i ∈ info, i.Within e) : Does C e (directCall target info) := by
  unfold directCall
  refine lowers_get.andThen fun d => ?_
  extract_lets call
  have hcall : ∀ u, Does C e (call u) := fun _ =>
    does_action (.directCall target info) ⟨hleaves, hinfo⟩ (by unfold Action.perform; rfl)
  split
  · exact finds_position.lowers.andThen fun p => (does_nops _).andThen hcall
  · exact hcall ()

theorem does_indirectCall {address : Operand} {target : Option CallTarget} {info : DebugInfo}
    (hleaves : e.leaves) (hinfo : info.Within e) : Does C e (indirectCall address target info) :=
  (does_inGpr address).andThen fun r =>
    does_action (.indirectCall r target info) ⟨hleaves, hinfo⟩ rfl

theorem does_throwException {unwind : Bool} {info : DebugInfo} (hleaves : e.leaves)
    (hinfo : info.Within e) : Does C e (throwException unwind info) := by
  unfold throwException
  refine (does_directCall hleaves ?_).andThen fun _ => lowers_get.andThen fun d => ?_
  · rintro i ⟨⟩
    exact hinfo
  · split
    · exact does_nops 1
    · exact does_pure ()

theorem does_safepoint (info : DebugInfo) : Does C e (safepoint info) :=
  does_action (.safepoint info) trivial rfl

theorem does_nullCheck {object : Operand} {info : DebugInfo} (hinfo : info.Within e) :
    Does C e (nullCheck object info) :=
  (finds_gpr object).lowers.andThen fun _ =>
    (accesses_emit ⟨Instr.encodable_of_some rfl (encodable_based _ _), e.admits_nothing⟩).trap hinfo

theorem does_lea {address result : Operand} (h : e.Sets result) : Does C e (lea address result) :=
  does_gprResult h fun res hres _ => (finds_location address).lowers.bind fun _ hl =>
    does_at (i := .lea true res) hl.2 (fun _ => rfl) rfl (e.admits_gpr hres)

/-- An exchange overwrites `rax` and stores to its cell. -/
theorem does_compareAndSwap {cell expected newValue : Operand} (hrax : e.gprs .rax)
    (hstores : ∀ l, place? C.frame cell = some l → e.stores l cell.kind.size) :
    Does C e (compareAndSwap cell expected newValue) := by
  unfold compareAndSwap
  split
  · exact lowers_unhandled _
  · rename_i wide hwide
    refine (finds_gpr expected).lowers.andThen fun old => ?_
    split
    · exact lowers_unhandled _
    · refine (finds_gpr newValue).lowers.andThen fun new =>
        (finds_location cell).lowers.bind fun _ hl => ?_
      split
      · exact lowers_unhandled _
      · refine does_at (i := (.cmpxchg true wide · new)) hl.2 (fun _ => rfl) rfl ?_
        have hsize : (Width.ofWide wide).bytes = cell.kind.size := by
          revert hwide
          cases cell.kind <;> rintro ⟨⟩ <;> rfl
        constructor
        · simp [Instr.footprint, Instr.decoded, Decoded.footprint, Footprint.rm,
            Footprint.memory, hrax]
        · simp [Instr.footprint, Instr.decoded, Decoded.footprint, Footprint.rm, Footprint.memory]
        · rintro m n ⟨⟩
          exact hsize ▸ hstores _ hl.1
        · rintro ⟨⟩

theorem does_memoryBarrier (barriers : Barriers) : Does C e (memoryBarrier barriers) := by
  unfold memoryBarrier
  split
  · exact does_plain rfl rfl e.admits_nothing
  · exact does_pure ()

end MachineCode.Lower
