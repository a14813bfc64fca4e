import MachineCode.Proofs.Accesses.Acceptance

/-! Constant indices. A constant index becomes part of the displacement, with all of its 64 bits. An
integer is kept without a sign, so that a negative one counts from the other end. -/
namespace MachineCode

open X64 Lower

namespace Constant

/-- The constant is an integer or a long that stands for `c`, and it counts as `n` where it is an
index. -/
inductive Counts : Constant → Int → Int → Prop
  | int (v : Int32) : Counts (.int v) v.toInt (v.toInt % 2 ^ 32)
  | long (v : Int64) : Counts (.long v) v.toInt v.toInt

namespace Counts

variable {k : Constant} {c n : Int}

theorem toInt64_eq (h : k.Counts c n) : k.toInt64.toInt = n := by
  cases h with
  | int v =>
    have hbits : (Constant.int v).toInt64.toInt = (v.toBitVec.setWidth 64).toInt := rfl
    have hv : v.toInt = v.toBitVec.toInt := rfl
    have hlt := v.toBitVec.isLt
    rw [hbits, hv, BitVec.toInt_eq_toNat_cond, BitVec.toInt_eq_toNat_cond, BitVec.toNat_setWidth]
    omega
  | long v => rfl

/-- A negative integer counts as a number that is too large by all of its bits. -/
theorem cases (h : k.Counts c n) :
    n = c ∧ (0 ≤ c ∨ k.kind = .long) ∨ n = c + 2 ^ 32 ∧ c < 0 ∧ k.kind = .int := by
  cases h with
  | int v =>
    have hlow := v.le_toInt
    have hhigh := v.toInt_lt
    by_cases hv : 0 ≤ v.toInt
    · exact .inl ⟨by omega, .inl hv⟩
    · exact .inr ⟨by omega, by omega, rfl⟩
  | long v => exact .inl ⟨rfl, .inr rfl⟩

theorem eq_iff (h : k.Counts c n) : n = c ↔ 0 ≤ c ∨ k.kind = .long := by
  obtain ⟨heq, hk⟩ | ⟨hne, hneg, hk⟩ := h.cases
  · exact iff_of_true heq hk
  · refine iff_of_false (by omega) (not_or.mpr ⟨by omega, ?_⟩)
    rw [hk]
    nofun

end Counts

end Constant

section

variable {x : Expansion} {op : MicroOp} {access : CellAccess} {k : Constant} {scale : Scale}
  {disp : Int32} {c n : Int}

/-- The address of a cell whose index is the number `c`. -/
theorem Cell.address?_of_index {cell : Cell} {S : Site} {frame : Frame} {s : Machine} {p : Word}
    {index : Operand} (hoffset : cell.offset = some (index, scale, disp))
    (hindex : Cell.index? s index = some (BitVec.ofInt 64 c))
    (hp : S.word? frame s cell.pointer = some p) :
    cell.address? S frame s = some (p + BitVec.ofInt 64 (disp.toInt + c * scale.value)) := by
  have hdistance : cell.offset? s =
      some (BitVec.ofInt 64 disp.toInt + BitVec.ofInt 64 c <<< scale.log2.val) := by
    rw [Cell.offset?, hoffset]
    exact congrArg (Option.map _) hindex
  rw [Cell.address?, hp, Option.bind_some, hdistance, Cell.shiftLeft_scale,
    ← BitVec.ofInt_mul, ← BitVec.ofInt_add]
  rfl

theorem Constant.Counts.index? (hk : k.Counts c n) (s : Machine) :
    Cell.index? s (.const k) = some (BitVec.ofInt 64 n) := by
  rw [← hk.toInt64_eq]
  exact congrArg some BitVec.ofInt_toInt.symm

theorem Cell.index?_of_gpr? {s : Machine} {index : Operand} {g : Gpr} (hg : gpr? index = some g) :
    Cell.index? s index = some (s.reg g) := by
  cases index with
  | stack | const | addr => cases hg
  | reg r kind => exact congrArg (Option.map s.reg) hg

/-- Numbers that are not too far apart are different as words. -/
theorem ofInt_inj {a b : Int} (hlow : a - 2 ^ 64 < b) (hhigh : b < a + 2 ^ 64)
    (h : BitVec.ofInt 64 a = BitVec.ofInt 64 b) :
    a = b := by
  have hnat := congrArg BitVec.toNat h
  rw [BitVec.toNat_ofInt, BitVec.toNat_ofInt] at hnat
  omega

/-- The constant index is at the address that the register gives, unless it is a negative
integer. -/
theorem Constant.Counts.ofInt_eq_iff (hk : k.Counts c n) (p : Word) :
    p + BitVec.ofInt 64 (disp.toInt + c * scale.value) =
      p + BitVec.ofInt 64 (disp.toInt + n * scale.value) ↔ n = c := by
  rw [BitVec.add_right_inj]
  refine ⟨fun heq => ?_, fun heq => by rw [heq]⟩
  obtain ⟨heq, -⟩ | ⟨hn, -, -⟩ := hk.cases
  · exact heq
  · subst hn
    have hscale : 0 < scale.value ∧ scale.value ≤ 8 := by cases scale <;> decide
    have hdistance : disp.toInt + (c + 2 ^ 32) * scale.value =
        disp.toInt + c * scale.value + 2 ^ 32 * scale.value := by
      rw [Int.add_mul, Int.add_assoc]
    rw [hdistance] at heq
    have := ofInt_inj (by omega) (by omega) heq
    omega

/-- The displacement with a constant index, as 64 bits hold it. -/
theorem Constant.Counts.toInt_folded (hk : k.Counts c n) (scale : Scale) (disp : Int32) :
    (k.folded scale disp).toInt = (disp.toInt + n * scale.value).bmod (2 ^ 64) := by
  have hscale : (Int64.ofNat scale.value).toInt = scale.value := by cases scale <;> rfl
  have hdisp : disp.toInt64.toInt = disp.toInt := Int32.toInt_toInt64 disp
  rw [Constant.folded, Int64.toInt_add, Int64.toInt_mul, hk.toInt64_eq, hscale,
    hdisp, Int.add_bmod_bmod]

/-- Where the product has 64 bits, the sum does not wrap around to a displacement. -/
theorem bmod_isDisplacement_iff {d m : Int} (hd : -2 ^ 31 ≤ d ∧ d < 2 ^ 31)
    (hm : -2 ^ 63 ≤ m ∧ m < 2 ^ 63) :
    -2 ^ 31 ≤ (d + m).bmod (2 ^ 64) ∧ (d + m).bmod (2 ^ 64) < 2 ^ 31 ↔
    -2 ^ 31 ≤ d + m ∧ d + m < 2 ^ 31 := by
  rw [Int.bmod_def]
  omega

/-- A constant index counts with all of its bits, as `n`, and becomes part of the displacement. The
sum with the scaled index is computed with 64 bits: where the product has no more, it fits the
displacement if the exact sum does. An access whose displacement fits is lowered, and it is at the
address that a register with the number `c` gives, unless the constant is a negative integer; that
counts as a number `2 ^ 32` larger. A displacement that does not fit is reported as 64 bits hold
it. -/
theorem exists_run_folded (hop : x.access? op = some access)
    (hoffset : access.cell.offset = some (.const k, scale, disp)) (hk : k.Counts c n) :
    let exact := disp.toInt + n * scale.value
    let folded := exact.bmod (2 ^ 64)
    (-2 ^ 63 ≤ n * scale.value → n * scale.value < 2 ^ 63 →
      (-2 ^ 31 ≤ folded ∧ folded < 2 ^ 31 ↔ -2 ^ 31 ≤ exact ∧ exact < 2 ^ 31) ∧
      (-2 ^ 63 ≤ exact → exact < 2 ^ 63 → folded = exact)) ∧
    (∀ (target : Target) (source : MethodSource) (before : Draft),
      Attempts target source x op before →
      access.cell.pointer.InRange source.frame before.data.size →
      (-2 ^ 31 ≤ folded → folded < 2 ^ 31 → ¬ access.Unlowerable → ¬ access.Conflicts →
        access.operand.InRange source.frame before.data.size →
        (op.canTrap = true → x.info.isSome = true ∧
          ¬ before.tables.ReturnsTo before.buffer.position) →
        ∃ d', microOp x op before = .ok () d') ∧
      (¬ (-2 ^ 31 ≤ folded ∧ folded < 2 ^ 31) → ¬ access.cell.pointer.Unreadable →
        (compile target source).1 = .error (.displacementOutOfRange folded))) ∧
    ∀ (I : Installation) (start stop : Nat), I.HasMicro x op start stop →
      access.Undisturbed I.source.frame →
      ∃ pc, start ≤ pc ∧ pc < stop ∧ ∀ machine : Machine, machine.Loaded I.base I.image →
        machine.rip = I.base + BitVec.ofNat 64 start → access.Ready I.site I.source.frame machine →
        ∀ p, I.site.word? I.source.frame machine access.cell.pointer = some p →
        access.cell.address? I.site I.source.frame machine = some (p + BitVec.ofInt 64 exact) ∧
        (∀ index g, gpr? index = some g → machine.reg g = BitVec.ofInt 64 c →
          (Cell.address? ⟨access.cell.pointer, some (index, scale, disp)⟩ I.site
            I.source.frame machine =
            access.cell.address? I.site I.source.frame machine ↔ 0 ≤ c ∨ k.kind = .long)) ∧
        (∀ e, access.hazard I.site I.source.frame machine = some e →
          machine.Stops (I.site.Span start stop) (e (I.base + BitVec.ofNat 64 pc))) ∧
        (access.hazard I.site I.source.frame machine = none →
          ∃ machine', machine.RunsTo (I.base + BitVec.ofNat 64 stop) machine' ∧
            access.Done I.site I.source.frame machine.core machine'.core) := by
  intro exact folded
  have hfolded : (k.folded scale disp).toInt = folded := hk.toInt_folded scale disp
  refine ⟨fun hlow hhigh => ⟨?_, fun hlow' hhigh' => ?_⟩,
    fun target source before hbefore hpointer =>
    ⟨fun hlow hhigh hcan hfree hoperand htrap => ?_, fun hfar hread => ?_⟩,
    fun I start stop hcode haccess => ?_⟩
  · exact bmod_isDisplacement_iff ⟨disp.le_toInt, disp.toInt_lt⟩ ⟨hlow, hhigh⟩
  · exact Int.bmod_eq_of_le_mul_two (by omega) (by omega)
  · have hfold : access.cell.Foldable := by
      intro c' scale' disp' hoffset'
      cases hoffset.symm.trans hoffset'
      rw [hfolded]
      exact int32?_isSome.mpr ⟨hlow, hhigh⟩
    exact hbefore.exists_microOp_eq_ok hop hcan hfree ⟨hpointer, hfold, hoperand⟩ htrap
  · have hfar' : int32? (k.folded scale disp).toInt = none := by
      rwa [hfolded, ← Option.not_isSome_iff_eq_none, int32?_isSome]
    obtain ⟨d', hrun⟩ := hbefore.exists_microOp_eq_error_of_index hop hread hpointer hoffset hfar'
    rw [hfolded] at hrun
    exact hbefore.compile_eq_error hrun
  · obtain ⟨pc, hstart, hstop, hrun⟩ := hcode.exists_trap_or_run hop haccess
    refine ⟨pc, hstart, hstop, fun machine hloaded hrip hready p hp => ?_⟩
    have haddress := Cell.address?_of_index hoffset (hk.index? machine) hp
    refine ⟨haddress, fun index g hg hc => ?_, hrun machine hloaded hrip hready⟩
    have hreg : Cell.address? ⟨access.cell.pointer, some (index, scale, disp)⟩ I.site
        I.source.frame machine = _ :=
      Cell.address?_of_index rfl ((Cell.index?_of_gpr? hg).trans (congrArg some hc)) hp
    rw [haddress, hreg, Option.some_inj, hk.ofInt_eq_iff, hk.eq_iff]

end

/-- A load with an integer as its index, and one where the integer is negative. -/
theorem exists_run_folded_int :
    let target : Target := ⟨{ Options.standard with useStackBanging := false }, ⟨true, true⟩, 4096⟩
    let pointer : Operand := .reg Gpr.rbx.register .object
    let result : Operand := .reg Gpr.rax.register .int
    let op : MicroOp := .pointerLoadDisp 0 1 .times4 16 2 false
    let source : Int32 → MethodSource := fun index => ⟨"test", none, .empty, [],
      [.template ⟨"load", [op], none, 0⟩ [pointer, .const (.int index), result]
        none none, .ret none]⟩
    let machine := Machine.initial.setReg .rbx 0x30000000
    (∃ (I : Installation) (x : Expansion) (start stop : Nat) (machine' : Machine), I.source =
      source 3 ∧ I.HasMicro x op start stop ∧
      (I.enter machine start).RunsTo (I.base + BitVec.ofNat 64 stop) machine' ∧
      I.site.Obtains I.source.frame result
        (BitVec.ofNat 64 ((I.enter machine start).memory.readWord 0x3000001C 4))
          (I.enter machine start).core machine'.core) ∧
    (∃ x before d', Attempts target (source 3) x op before ∧ microOp x op before = .ok () d') ∧
    (compile target (source (-1))).1 = .error (.displacementOutOfRange 17179869196) := by
  intro target pointer result op source machine
  let t : Template := ⟨"load", [op], none, 0⟩
  let x : Int32 → Expansion :=
    fun index => ⟨t, [pointer, .const (.int index), result], [], none, none⟩
  let access : Int32 → CellAccess :=
    fun index => ⟨.load, ⟨pointer, some (.const (.int index), .times4, 16)⟩, result⟩
  have haccess : ∀ index, (x index).access? op = some (access index) := fun _ => rfl
  have hread : ¬ pointer.Unreadable := by rintro (⟨-, h⟩ | h) <;> cases h
  have hstart : ∀ index, (Attempts.first? target (source index)).isSome = true →
      ∃ before, Attempts target (source index) (x index) op before := fun index h => by
    obtain ⟨e, he⟩ := Option.isSome_iff_exists.mp h
    exact ⟨_, Attempts.of_first? he rfl rfl rfl⟩
  refine ⟨?_, ?_, ?_⟩
  · obtain ⟨I, -, hsource, -, hlow, hhigh⟩ :=
      Installation.exists_installed target (source 3) 0x10000000 (by decide +kernel)
    have ht : .template t [pointer, .const (.int 3), result] none none ∈ I.source.ops := by
      simp [hsource, source, t]
    obtain ⟨labels, start, stop, hcode⟩ := I.exists_hasMicro ht (List.mem_singleton_self op)
    have hclear : (access 3).Undisturbed I.source.frame := by
      refine ⟨by rintro ⟨⟩, ?_, by rintro ⟨⟩⟩
      rintro - ⟨l, h, -⟩
      cases h
    obtain ⟨pc, -, -, hrun⟩ :=
      (exists_run_folded (x := ⟨t, _, labels, none, none⟩) (haccess 3) rfl (.int 3)).2.2 I
        start stop hcode hclear
    obtain ⟨haddress, -, -, hrun⟩ :=
      hrun (I.enter machine start) (Installation.loaded_enter _ start) rfl
      ⟨Site.readable_of_unprotected rfl hlow hhigh, nofun, nofun⟩ _ rfl
    obtain ⟨machine', hruns, a, ha, hobtains⟩ := hrun rfl
    cases ha
    exact ⟨I, _, start, stop, machine', hsource, hcode, hruns, hobtains⟩
  · obtain ⟨before, hbefore⟩ := hstart 3 (by decide +kernel)
    have hcan : ¬ (access 3).Unlowerable := by
      rintro (h | ⟨_, ⟨⟩, h, -⟩ | h | ⟨h, -⟩)
      · exact hread h
      all_goals cases h
    obtain ⟨d', hrun⟩ :=
      ((exists_run_folded (haccess 3) rfl (.int 3)).2.1 target (source 3) before hbefore trivial).1
      (by decide) (by decide) hcan (by rintro ⟨⟨⟩, -⟩) trivial nofun
    exact ⟨_, before, d', hbefore, hrun⟩
  · obtain ⟨before, hbefore⟩ := hstart (-1) (by decide +kernel)
    exact ((exists_run_folded (haccess (-1)) rfl (.int (-1))).2.1 target (source (-1))
      before hbefore trivial).2
      (by decide) hread

end MachineCode
