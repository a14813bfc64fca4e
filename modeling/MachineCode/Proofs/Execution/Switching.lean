import MachineCode.Proofs.Execution.Deciding
import MachineCode.Proofs.Execution.Tables
import MachineCode.Proofs.Failures.Attempts

/-! Switches. The index is counted from the least number, an offset beyond the last target leads to
the default label, and each other one leads through the table to the label that it selects. -/
namespace MachineCode

open X64 Lower Machine Chunk

namespace Lower

/-! ### The code of a switch -/

/-- The instruction that makes the least index zero, modulo `2 ^ 32`. -/
def bias (index : Gpr) (low : Int32) : Instr :=
  if low = 0 then .mov false index index else .aluImm .sub false (.reg index) low

/-- The code of a switch that has targets. -/
def switch (index : Gpr) (low span high : Int32) (targets : List Label)
    (default : Label) : Lower Unit := do
  emit (bias index low)
  emit (.aluImm .cmp false (.reg index) span)
  jcc .a default
  dispatch index low high targets

theorem tableSwitch_eq (index : Operand) (low : Int32) (targets : List Label) (default : Label) :
    tableSwitch index low targets default = gpr index >>= fun idx =>
      if idx = scratch ∨ idx = .rsp then unhandled s!"switch index in {idx.title}"
      else if targets.isEmpty then jmp default
      else match int32? (targets.length - 1 : Nat) with
        | none => unhandled s!"{targets.length} switch targets"
        | some span =>
          match int32? (low.toInt + span.toInt) with
          | none => unhandled s!"switch range {low.toInt} + {span.toInt}"
          | some high => switch idx low span high targets default := by
  unfold tableSwitch
  refine bind_congr fun idx => if_congr Iff.rfl rfl (if_congr Iff.rfl rfl ?_)
  cases int32? (targets.length - 1 : Nat) with
  | none => rfl
  | some span =>
    dsimp only
    cases int32? (low.toInt + span.toInt) with
    | none => rfl
    | some high =>
      dsimp only [switch, bias]
      split <;> rfl

variable {S : Site} {C : Context} {index : Gpr} {low span high : Int32}
  {targets : List Label} {default : Label}

/-! ### The offset -/

/-- As long as the numbers of a switch fit, an offset stands for one of them. -/
theorem toNat_switchOffset_eq_iff {s : Machine} {k : Nat} (h : low.toInt + k < 2 ^ 31) :
    (switchOffset index low s).toNat = k ↔ ((s.reg index).setWidth 32).toInt = low.toInt + k := by
  have hlow := low.le_toInt
  have hk : k < 2 ^ 32 := by omega
  have hsum : low.toInt + k = (BitVec.ofNat 32 k + low.toBitVec).toInt := by
    have hadd : BitVec.ofNat 32 k + low.toBitVec = BitVec.ofInt 32 (low.toInt + k) := by
      rw [Int.add_comm, BitVec.ofInt_add, BitVec.ofInt_natCast]
      exact congrArg _ BitVec.ofInt_toInt.symm
    rw [hadd, BitVec.toInt_ofInt, Int.bmod_eq_of_le (by omega) (by omega)]
  rw [hsum, BitVec.toInt_inj, ← BitVec.sub_eq_iff_eq_add, ← BitVec.toNat_inj, BitVec.toNat_ofNat,
    Nat.mod_eq_of_lt hk]
  rfl

theorem executes_bias {s : Machine} {next : Word} :
    Executes (bias index low).decoded next s fun c =>
    ∃ flags, c = { s with flags := flags }.setReg index
      ((switchOffset index low s).setWidth 64) := by
  unfold bias
  split
  -- At operand size 32 a move to itself clears the high half of the register, as the subtraction
  -- does.
  · rename_i hzero
    refine (executes_mov (readsRm_reg index .dword).source).mono fun _ c hc => ⟨s.flags, ?_⟩
    rw [hc, merge_dword, low_low, switchOffset, hzero]
    exact congrArg _ (congrArg _ (BitVec.sub_zero _).symm)
  · refine (executes_alu (by decide) (readsSource_imm low.toInt .dword)).mono fun _ c hc => ?_
    obtain ⟨flags, rfl⟩ := hc
    have hdiff :
        (aluAt .sub .dword (Machine.low (s.reg index) .dword)
          (BitVec.ofInt 64 low.toInt) s.flags.cf).1 =
        (switchOffset index low s).setWidth 64 := by
      have hoffset : (Machine.low (s.reg index) .dword).setWidth 32 -
        (BitVec.ofInt 64 low.toInt).setWidth 32 - 0#32 =
          switchOffset index low s := by
        rw [BitVec.sub_zero, show (BitVec.ofInt 64 low.toInt).setWidth 32 = _ from
          setWidth_ofInt (by decide) low.toBitVec]
        exact congrArg (· - low.toBitVec) (setWidth_low (s.reg index) .dword)
      exact congrArg (BitVec.setWidth 64) hoffset
    exact ⟨flags, by rw [hdiff, merge_dword, low_extended]⟩

/-- The offset has been compared with the greatest one. -/
def Checked (S : Site) (index : Gpr) (low : Int32) (targets : List Label) : Assertion := fun s c =>
  Biased S index low s c ∧ c.flags.cond .a =
    decide (targets.length ≤ (switchOffset index low s).toNat)

theorem runs_check {L : Label → Assertion} (hne : targets ≠ [])
    (hspan : span.toInt = (targets.length - 1 : Nat)) :
    Runs S C (emit (.aluImm .cmp false (.reg index) span)) (Biased S index low)
      (fun _ => Checked S index low targets) L := by
  refine runs_emit (Instr.encodable_of_none rfl) fun s c next hloads hbiased => ?_
  have hcmp : Executes (Instr.aluImm .cmp false (.reg index) span).decoded next c fun c' =>
      c' = { c with flags := (Flags.sub (switchOffset index low s) span.toBitVec false).2 } := by
    refine (executes_cmp (readsRm_reg index .dword) (readsSource_imm span.toInt .dword)).mono
      fun _ c' hc => ?_
    have hoffset : (Machine.low (c.reg index) .dword).setWidth 32 = switchOffset index low s := by
      rw [hbiased.value, low_extended]
      exact (BitVec.setWidth_setWidth_of_le _ (by decide)).trans (BitVec.setWidth_eq _)
    have hflags :
        (aluAt .cmp .dword (Machine.low (c.reg index) .dword)
          (BitVec.ofInt 64 span.toInt) c.flags.cf).2 =
        (Flags.sub (switchOffset index low s) span.toBitVec false).2 := by
      rw [← hoffset, ← show _ = span.toBitVec from setWidth_ofInt (by decide) span.toBitVec]
      rfl
    rw [hc, hflags]
  refine (hcmp.loads hloads fun _ _ h => by rw [h]).mono fun _ c' hc => ⟨hc.1, ?_⟩
  obtain rfl := hc.2
  have hcount : span.toBitVec.toNat + 1 = targets.length := by
    have hpos : 0 < targets.length := List.length_pos_iff.mpr hne
    have hspan : span.toBitVec.toInt = (targets.length - 1 : Nat) := hspan
    rw [BitVec.toInt_eq_toNat_cond] at hspan
    split at hspan <;> omega
  refine ⟨⟨hbiased.readable, hbiased.value, hbiased.keeps.trans (keeps_flags _)⟩, ?_⟩
  rw [Flags.cond_above (by decide) (by decide), BitVec.ult_eq_decide]
  exact decide_eq_decide.mpr (by omega)

/-- An offset beyond the last target leads to the default label. -/
theorem runs_default : Runs S C (jcc .a default) (Checked S index low targets)
    (fun _ s c => Biased S index low s c ∧ (switchOffset index low s).toNat < targets.length)
      (SwitchesTo index low targets default) := by
  refine (runs_jcc .a default).mono ?_ ?_
  · rintro _ s c ⟨⟨hbiased, habove⟩, hflags⟩
    exact ⟨hbiased, by simpa [habove] using hflags⟩
  · rintro l s c ⟨rfl, ⟨hbiased, habove⟩, hflags⟩
    have hle : targets.length ≤ (switchOffset index low s).toNat := by simpa [habove] using hflags
    exact ⟨by rw [List.getElem?_eq_none hle, Option.getD_none], hbiased.keeps⟩

end Lower

/-! ### Code that goes elsewhere -/

/-- The code leaves for a label, and not before it has taken a step. -/
def Departs (S : Site) (P : Assertion) (L : Label → Assertion) : Site.Claim := fun pre new final =>
  ∀ s machine, S.Stands (extent pre) (P s) machine →
    ∃ m₁ machine' l p, Machine.step machine = .ok () m₁ ∧
    m₁.Walks (S.Span (extent pre) (extent (pre ++ new))) machine' ∧
    final.buffer.labelOffset l = some p ∧
    S.Stands p (L l s) machine'

section Departures

variable {S : Site} {pre new post : List Chunk} {final : Draft} {P Q : Assertion}
  {L : Label → Assertion}

/-- A branch without a condition leaves at once. -/
theorem departs_branch {short : Bool} {l : Label}
    (hhosts : S.Hosts (pre ++ .branch short none l :: post) final) (h : ∀ s c, P s c → L l s c) :
    Departs S P L pre [.branch short none l] final := by
  intro s machine hat
  obtain ⟨p, machine', hl, hstep, hcore, hrip⟩ := hhosts.step_branch hat
  exact ⟨machine', machine', l, p, hstep, .refl _, hl, (hat.mono (h s)).moved hcore hrip⟩

/-- The first instruction is executed, and the rest leads to a label. -/
theorem departs_instr {i : Instr} (hhosts : S.Hosts (pre ++ .instr i none :: post) final)
    (h : ∀ s c next, S.Loads c → P s c → Executes i.decoded next c fun c' => S.Loads c' ∧ Q s c')
    (hrest : S.Leads Q (fun _ _ => False) L (pre ++ [.instr i none]) new final) :
    Departs S P L pre (.instr i none :: new) final := by
  intro s machine hat
  obtain ⟨m₁, hstep, hat₁⟩ : ∃ m₁, Machine.step machine = .ok () m₁ ∧
      S.Stands (extent (pre ++ [.instr i none])) (Q s) m₁ :=
    hat.executes (hhosts.step_plain hat) (h s _ _ hat.loaded hat.core)
  obtain ⟨machine', hwalks, hend | ⟨l, p, hl, hexit⟩⟩ := hrest s m₁ hat₁
  · exact hend.core.elim
  · rw [List.append_assoc] at hwalks
    exact ⟨m₁, machine', l, p, hstep, Site.Span.grow (by simp) (Nat.le_refl _) hwalks, hl, hexit⟩

end Departures

namespace Lower

variable {S : Site} {C : Context} {low span high : Int32} {targets : List Label} {default : Label}

theorem lays_switch {index : Gpr} (hscratch : index ≠ scratch) (hrsp : index ≠ .rsp)
    (hne : targets ≠ []) (hspan : span.toInt = (targets.length - 1 : Nat))
    (hhigh : high.toInt = low.toInt + span.toInt) :
    Lays S C (switch index low span high targets default) fun _ pre new final =>
      Departs S (fun s c => c = s ∧ S.Readable s)
        (SwitchesTo index low targets default) pre new final ∧
        EndsTable S low high targets (pre ++ new) final := by
  have hcount : high.toInt - low.toInt + 1 = targets.length := by
    have hpos : 0 < targets.length := List.length_pos_iff.mpr hne
    omega
  have hbias : (bias index low).Encodable := by
    unfold bias
    split <;> exact Instr.encodable_of_none rfl
  -- The first instruction stands apart: where a label leads back to the switch, control has to
  -- leave before it arrives.
  have hrest : Lays S C _ fun _ pre new final =>
    S.Leads (Biased S index low) (fun _ _ => False) (SwitchesTo index low targets default)
      pre new final ∧ EndsTable S low high targets (pre ++ new) final :=
    (runs_check hne hspan).before fun _ => runs_default.before fun _ =>
      lays_dispatch hscratch hrsp hcount
  refine ((lays_emit hbias).bind fun _ => hrest).mono ?_
  rintro _ pre new post final hhosts ⟨_, new₁, new₂, rfl, rfl, hleads, hends⟩
  refine ⟨departs_instr hhosts ?_ hleads, by rwa [← List.append_assoc]⟩
  rintro s c next hloads ⟨rfl, hreadable⟩
  refine (executes_bias.loads hloads fun _ _ ⟨_, h⟩ => by rw [h]; rfl).mono
    fun _ c' hc => ⟨hc.1, ?_⟩
  obtain ⟨flags, rfl⟩ := hc.2
  have hkeeps : c.KeepsBut index _ :=
    (keeps_flags flags).trans (keeps_setReg (.inl rfl) ((switchOffset index low c).setWidth 64))
  exact ⟨hreadable.keeps hkeeps, reg_setReg_self _ _ _, hkeeps⟩

variable {index : Operand}

theorem lays_tableSwitch {idx : Gpr} (hidx : gpr? index = some idx) :
    Lays S C (lower (.tableSwitch index low targets default)) fun _ pre new final =>
      Departs S (fun s c => c = s ∧ S.Readable s)
        (SwitchesTo idx low targets default) pre new final ∧
        (targets ≠ [] → ∃ high : Int32, high.toInt = low.toInt + targets.length - 1 ∧
          EndsTable S low high targets (pre ++ new) final) := by
  rw [lower, tableSwitch_eq]
  refine (finds_gpr index).lays_bind fun g hg => ?_
  cases hidx.symm.trans hg
  split
  · exact lays_of_fails (fails_unhandled _)
  · rename_i hregister
    split
    · rename_i hempty
      obtain rfl : targets = [] := List.isEmpty_iff.mp hempty
      refine (lays_jmp default).mono fun _ pre new post final hhosts h => ?_
      obtain ⟨short, rfl⟩ := h
      exact ⟨departs_branch hhosts fun s c hc => ⟨rfl, hc.1 ▸ .refl c⟩, fun hne => absurd rfl hne⟩
    · rename_i hne
      have hne : targets ≠ [] := fun h => hne (List.isEmpty_iff.mpr h)
      have hpos : 0 < targets.length := List.length_pos_iff.mpr hne
      split
      · exact lays_of_fails (fails_unhandled _)
      · rename_i span hspan
        have hspan := toInt_of_int32? hspan
        split
        · exact lays_of_fails (fails_unhandled _)
        · rename_i high hhigh
          have hhigh := toInt_of_int32? hhigh
          refine (lays_switch (fun h => hregister (.inl h)) (fun h => hregister (.inr h)) hne
            hspan hhigh).mono ?_
          rintro _ pre new post final - ⟨hdeparts, hends⟩
          exact ⟨hdeparts, fun _ => ⟨high, by omega, hends⟩⟩

/-! ### Switches without code -/

/-- A switch is refused if its numbers go beyond the greatest one of 32 bits. -/
theorem refused_tableSwitch (hne : targets ≠ [])
    (hrange : 2 ^ 31 ≤ low.toInt + targets.length - 1) :
    Refused (lower (.tableSwitch index low targets default)) := by
  rw [lower, tableSwitch_eq]
  cases hidx : gpr? index with
  | none => exact (refused_gpr hidx).bind
  | some idx =>
    rw [gpr_eq_pure hidx, pure_bind, if_neg fun h => hne (List.isEmpty_iff.mp h)]
    split
    · exact refused_unhandled _
    · split
      · exact refused_unhandled _
      · rename_i span hspan
        split
        · exact refused_unhandled _
        · rename_i high hhigh
          have hpos : 0 < targets.length := List.length_pos_iff.mpr hne
          have hspan := toInt_of_int32? hspan
          have hhigh := toInt_of_int32? hhigh
          have := high.toInt_lt
          omega

end Lower

/-! ### Installed code -/

namespace Installation

/-- From this state the code between these positions goes to where the label is placed. Nothing else
has changed but the two registers. -/
def Arrives (I : Installation) (index : Gpr) (start stop : Nat) (machine : Machine)
    (l : Label) : Prop :=
  ∃ p q m₁ machine', I.HasCode (.label l) p q ∧ Machine.step machine = .ok () m₁ ∧
    m₁.Walks (I.site.Span start stop) machine' ∧
    machine'.rip = I.base + BitVec.ofNat 64 p ∧ machine.KeepsBut index machine'

variable {I : Installation} {index : Operand} {idx : Gpr} {low : Int32} {targets : List Label}
  {default : Label} {start stop : Nat}
  {machine : Machine}

theorem HasCode.arrives (hidx : gpr? index = some idx)
    (h : I.HasCode (.tableSwitch index low targets default) start stop)
    (hloaded : machine.Loaded I.base I.image) (hrip : machine.rip = I.base + BitVec.ofNat 64 start)
    (hreadable : I.site.Readable machine) :
    I.Arrives idx start stop machine
      (targets[(switchOffset idx low machine).toNat]?.getD default) := by
  obtain ⟨last, hlast⟩ := I.exists_ends
  obtain ⟨pre, new, post, -, ⟨hdeparts, -⟩, rfl, rfl⟩ :=
    h.hosts_last hlast fun C _ _ => lays_tableSwitch hidx
  obtain ⟨m₁, machine', l, p, hstep, hwalks, hoffset, hexit⟩ :=
    hdeparts machine.core machine ⟨hloaded, hrip, rfl, hreadable⟩
  obtain ⟨hl, hkeeps⟩ := hexit.core
  have hmem : l ∈ (Operation.tableSwitch index low targets default).labels := by
    rw [Operation.labels, hl]
    cases hget : targets[(switchOffset idx low machine.core).toNat]? with
    | none => exact List.mem_append_right _ (List.mem_singleton_self _)
    | some l => exact List.mem_append_left _ (List.mem_of_getElem? hget)
  obtain ⟨q, hcode⟩ := exists_hasCode_label hlast h.mem hmem hoffset
  subst hl
  exact ⟨p, q, m₁, machine', hcode, hstep, hwalks, hexit.rip, hkeeps.gprs, hkeeps.xmms,
    hkeeps.memory, hkeeps.ranges⟩

/-- The table of the switch in the finished method. -/
theorem HasCode.exists_table (hidx : gpr? index = some idx)
    (h : I.HasCode (.tableSwitch index low targets default) start stop) (hne : targets ≠ []) :
    ∃ t ∈ I.method.tables.jumpTables, t.low = low ∧ t.high.toInt = low.toInt + targets.length - 1 ∧
      t.entrySize = tableEntrySize ∧ t.position + tableEntrySize * targets.length = stop ∧
      ∀ i l, targets[i]? = some l →
        tableEntrySize ∣ t.position + tableEntrySize * i ∧ ∃ p q, I.HasCode (.label l) p q ∧
          Holds I.image (t.position + tableEntrySize * i) tableEntrySize (p - t.position) := by
  obtain ⟨last, hlast⟩ := I.exists_ends
  obtain ⟨pre, new, post, -, ⟨-, hends⟩, rfl, rfl⟩ :=
    h.hosts_last hlast fun C _ _ => lays_tableSwitch hidx
  obtain ⟨high, hhigh, t, hmem, hlow, rfl, hsize, halign, hstop, hentries⟩ := hends hne
  refine ⟨t, by rwa [hlast.completed.tables], hlow, hhigh, hsize, hstop, fun i l hl => ⟨?_, ?_⟩⟩
  · exact Nat.dvd_add halign (Nat.dvd_mul_right _ _)
  · obtain ⟨p, hoffset, hentry⟩ := hentries i l hl
    obtain ⟨q, hcode⟩ :=
      exists_hasCode_label hlast h.mem (List.mem_append_left _ (List.mem_of_getElem? hl)) hoffset
    exact ⟨p, q, hcode, hentry⟩

end Installation

/-- From any state in which the image can be read, the code of a switch goes to where the label is
placed that the low half of the index selects, as a signed number counted from the least one, and to
where the default label is placed if it selects none; nothing else changes but the index and scratch
registers. The method has a row about the table that ends the code: its range, and at a multiple of
four bytes the distance of each label from the table. Without targets there is no table. A range
that goes beyond the greatest 32-bit number is refused. -/
theorem exists_run_switched {index : Operand} {low : Int32} {targets : List Label}
    {default : Label} :
    (∀ (I : Installation) (idx : Gpr) (start stop : Nat), gpr? index = some idx →
      I.HasCode (.tableSwitch index low targets default) start stop →
        (∀ machine : Machine, machine.Loaded I.base I.image →
          machine.rip = I.base + BitVec.ofNat 64 start →
          I.site.Readable machine →
            (∀ (i : Nat) l, targets[i]? = some l →
              ((machine.reg idx).setWidth 32).toInt = low.toInt + i →
              I.Arrives idx start stop machine l) ∧
            ((∀ i : Nat, i < targets.length →
              ((machine.reg idx).setWidth 32).toInt ≠ low.toInt + i) →
              I.Arrives idx start stop machine default)) ∧
        (targets ≠ [] → ∃ t ∈ I.method.tables.jumpTables, t.low = low ∧
          t.high.toInt = low.toInt + targets.length - 1 ∧
          t.entrySize = 4 ∧ t.position + 4 * targets.length = stop ∧ ∀ i l, targets[i]? = some l →
            4 ∣ t.position + 4 * i ∧ ∃ p q, I.HasCode (.label l) p q ∧
            Holds I.image (t.position + 4 * i) 4 (p - t.position))) ∧
    (targets ≠ [] → 2 ^ 31 ≤ low.toInt + targets.length - 1 → ∀ d, ∃ detail d',
      operation (.tableSwitch index low targets default) d =
        .error (.unhandled (Operation.tableSwitch index low targets default).name detail) d') := by
  refine ⟨fun I idx start stop hidx hcode =>
    ⟨fun machine hloaded hrip hreadable => ?_, hcode.exists_table hidx⟩, fun hne hrange d => ?_⟩
  · have harrives := hcode.arrives hidx hloaded hrip hreadable
    -- As the method has been compiled, the greatest number of the switch is one of 32 bits.
    have hoffset : ∀ i < targets.length, (switchOffset idx low machine).toNat = i ↔
        ((machine.reg idx).setWidth 32).toInt = low.toInt + i := fun i hi => by
      have hne : targets ≠ [] := List.length_pos_iff.mp (Nat.zero_lt_of_lt hi)
      obtain ⟨t, -, -, hhigh, -⟩ := hcode.exists_table hidx hne
      have := t.high.toInt_lt
      exact toNat_switchOffset_eq_iff (by omega)
    refine ⟨fun i l hl hv => ?_, fun hv => ?_⟩
    · have hi : i < targets.length := (List.getElem?_eq_some_iff.mp hl).1
      rwa [(hoffset i hi).mpr hv, hl, Option.getD_some] at harrives
    · have hnone : targets.length ≤ (switchOffset idx low machine).toNat :=
        Nat.le_of_not_lt fun hlt => hv _ hlt ((hoffset _ hlt).mp rfl)
      rwa [List.getElem?_eq_none hnone, Option.getD_none] at harrives
  · exact operation_of_refused (refused_tableSwitch hne hrange) d

/-- Three numbers from -1 on: 0 leads back to the switch itself, whatever is in the high half of the
register, and -2 to the default label. From the greatest number on there is no room for three. -/
theorem exists_run_switched_back :
    let index : Operand := .reg Gpr.rax.register .int
    let targets : List Label := [⟨1⟩, ⟨0⟩, ⟨1⟩]
    let entered (I : Installation) (v : Word) (start : Nat) : Machine :=
      I.enter (Machine.initial.setReg .rax v) start
    ∃ (I : Installation) (start stop : Nat),
      I.HasCode (.tableSwitch index (-1) targets ⟨2⟩) start stop ∧
      I.Arrives .rax start stop (entered I 0xABCDEF0100000000 start) ⟨0⟩ ∧
      I.Arrives .rax start stop (entered I 0xFFFFFFFE start) ⟨2⟩ ∧
      (∃ t ∈ I.method.tables.jumpTables, t.low = -1 ∧ t.high.toInt = 1 ∧ t.position + 12 = stop) ∧
      ∀ d, ∃ detail d', operation (.tableSwitch index 0x7FFFFFFF targets ⟨2⟩) d =
        .error (.unhandled "table_switch" detail) d' := by
  intro index targets entered
  let ops : List Operation :=
    [.label ⟨0⟩, .tableSwitch index (-1) targets ⟨2⟩, .label ⟨1⟩, .ret none, .label ⟨2⟩, .ret none]
  obtain ⟨I, -, hsource, -, hlow, hhigh⟩ :=
    Installation.exists_installed
      ⟨{ Options.standard with useStackBanging := false }, ⟨true, true⟩, 4096⟩
      ⟨"test", none, .empty, [], ops⟩ 0x10000000 (by decide +kernel)
  obtain ⟨start, stop, hcode⟩ :=
    I.exists_hasCode (by simp [hsource, ops] : .tableSwitch index (-1) targets ⟨2⟩ ∈ I.source.ops)
  obtain ⟨hrun, htable⟩ := exists_run_switched.1 I .rax start stop rfl hcode
  have hreadable : ∀ v, I.site.Readable (entered I v start) :=
    fun v => Site.readable_of_unprotected rfl hlow hhigh
  have hloaded := fun v => Installation.loaded_enter (I := I) (Machine.initial.setReg .rax v) start
  have hvalue : ∀ v, (entered I v start).reg .rax = v :=
    fun v => reg_setReg_self Machine.initial .rax v
  obtain ⟨t, ht, hleast, hgreatest, -, hstop, -⟩ := htable (List.cons_ne_nil _ _)
  refine ⟨I, start, stop, hcode, ?_, ?_, ⟨t, ht, hleast, hgreatest, hstop⟩, fun d => ?_⟩
  · refine (hrun _ (hloaded _) rfl (hreadable _)).1 1 ⟨0⟩ rfl ?_
    rw [hvalue]
    decide
  · refine (hrun _ (hloaded _) rfl (hreadable _)).2 ?_
    rw [hvalue]
    decide
  · exact (@exists_run_switched index 0x7FFFFFFF targets ⟨2⟩).2 (List.cons_ne_nil _ _) (by decide) d

end MachineCode
