import MachineCode.Proofs.Execution.Integers
import MachineCode.Proofs.Failures.Attempts

/-! Shifts. Only the low bits of a count matter, five of them or for words six: of a constant they
are taken when the code is made, and of `rcx` by the instruction. -/
namespace MachineCode

open X64 Machine

/-- The shifted value at any width. -/
def ShiftOp.eval {n : Nat} (op : ShiftOp) (a : BitVec n) (count : Nat) : BitVec n :=
  match op with
  | .shl => a <<< count
  | .shr => a.sshiftRight count
  | .ushr => a >>> count

@[simp] theorem ShiftOp.eval_zero {n : Nat} (op : ShiftOp) (a : BitVec n) : op.eval a 0 = a := by
  cases op <;> simp [eval]

namespace Operand

/-- The operand can be the count of a shift into this result: it is a constant, or `rcx`, if the
result is elsewhere. -/
def CanCount (count result : Operand) : Prop :=
  match count with
  | const _ => True
  | reg r _ => r = Gpr.rcx.register ∧ result.register? ≠ some Gpr.rcx.register
  | stack .. | addr _ => False

/-- The word that gives the count. -/
def counted (s : Machine) : Operand → Word
  | const c => c.bits.toBitVec
  | _ => s.reg .rcx

end Operand

namespace Lower

/-! ### Instructions -/

section Instructions

variable {s : Machine} {next : Word} {op : ShiftOp} {wide : Bool} {dst : Gpr}

/-- The bits that an arithmetic shift brings in are copies of the sign. -/
theorem setWidth_sshiftRight_signExtend {w : Nat} (h : w ≤ 64) (a : BitVec w) (count : Nat) :
    ((a.signExtend 64).sshiftRight count).setWidth w = a.sshiftRight count := by
  refine BitVec.eq_of_getLsbD_eq fun i hi => ?_
  have hmsb : (a.signExtend 64).msb = a.msb := by
    by_cases heq : w = 64
    · subst heq
      rw [BitVec.signExtend_eq]
    · rw [BitVec.msb_signExtend]
      simp [show ¬ 64 ≤ w by omega]
  rw [BitVec.getLsbD_setWidth, BitVec.getLsbD_sshiftRight, BitVec.getLsbD_sshiftRight,
    BitVec.getLsbD_signExtend, hmsb]
  have hword : ¬ 64 ≤ i := by omega
  by_cases hlow : count + i < w
  · have hin : count + i < 64 := by omega
    simp [hi, hlow, hin, hword]
  · have hin : ¬ w ≤ i := by omega
    by_cases hcount : count + i < 64 <;> simp [hi, hlow, hword, hin, hcount]

/-- The shifted value depends on the operand alone, at its width. -/
theorem setWidth_shiftBits (op : ShiftOp) (w : Width) (a : Word) (count : Nat) :
    (shiftBits (shiftInstr op) w (low a w) count).1.setWidth w.bits =
      op.eval (a.setWidth w.bits) count := by
  cases op with
  | shl =>
    change (low (low a w <<< count) w).setWidth w.bits = a.setWidth w.bits <<< count
    rw [setWidth_low, BitVec.setWidth_shiftLeft_of_le w.bits_le, setWidth_low]
  | shr =>
    change (low ((Machine.signExtend (low a w) w).sshiftRight count) w).setWidth w.bits = _
    rw [setWidth_low, Machine.signExtend, setWidth_low, setWidth_sshiftRight_signExtend w.bits_le]
    rfl
  | ushr =>
    change (low a w >>> count).setWidth w.bits = a.setWidth w.bits >>> count
    rw [low, ← BitVec.setWidth_ushiftRight w.bits_le,
      BitVec.setWidth_setWidth_of_le _ w.bits_le, BitVec.setWidth_eq]

/-- What an instruction has as its count. -/
def amount (s : Machine) : ShiftCount → Nat
  | .imm n => n.toNat
  | .cl => (low (s.reg .rcx) .byte).toNat

/-- The register has been shifted at this width. -/
def Shifted (op : ShiftOp) (wide : Bool) (dst : Gpr) (count : Nat) : Assertion := fun s c =>
  c.memory = s.memory ∧ (c.reg dst).setWidth (Width.ofWide wide).bits =
    op.eval ((s.reg dst).setWidth (Width.ofWide wide).bits) (count % (Width.ofWide wide).bits)

/-- A shift whose count the instruction has reduced to the width; 0 changes nothing. -/
theorem yields_shifted (flags : Machine → Flags) (count : Nat) :
    Yields (if count % (Width.ofWide wide).bits ≠ 0 then do
        setFlags (flags (← get))
        writeReg dst (.ofWide wide)
          (shiftBits (shiftInstr op) (.ofWide wide) (low (s.reg dst) (.ofWide wide))
          (count % (Width.ofWide wide).bits)).1
      else pure ()) s fun _ => Shifted op wide dst count s := by
  by_cases hzero : count % (Width.ofWide wide).bits = 0
  · rw [if_neg (not_not_intro hzero)]
    refine (yields_pure ()).mono fun _ c hc => ⟨by rw [hc.2], ?_⟩
    rw [hc.2, hzero, ShiftOp.eval_zero]
  · rw [if_pos hzero]
    refine yields_get.bind fun machine c hc => (yields_setFlags _).bind fun _ c' hc' => ?_
    obtain ⟨-, rfl⟩ := hc
    subst hc'
    refine (yields_writeReg dst _ _).mono fun _ c' hc' => ⟨by rw [hc']; rfl, ?_⟩
    rw [hc', reg_setReg_self, merge_ofWide, setWidth_low, setWidth_shiftBits]

theorem executes_shift (count : ShiftCount) :
    Executes (.shift (shiftInstr op) (.ofWide wide) (.reg dst) count) next s
    (Shifted op wide dst (amount s count) s) := by
  have hmask : (if Width.ofWide wide = .qword then 64 else 32) = (Width.ofWide wide).bits := by
    cases wide <;> rfl
  refine (yields_readReg dst _).after ?_
  cases count with
  | imm n =>
    refine (yields_pure _).after ?_
    dsimp only
    rw [hmask]
    exact yields_shifted _ _
  | cl =>
    refine (yields_gets (g := fun m => (low (m.reg .rcx) .byte).toNat) fun _ => rfl).after ?_
    dsimp only
    rw [hmask]
    exact yields_shifted _ _

end Instructions

/-! ### Operations -/

section Operations

variable {S : Site} {C : Context} {op : ShiftOp} {value count result : Operand} {res : Gpr}

/-- The kind of a register does not matter for what moves into it. -/
theorem mov_reg (value : Operand) (r : Register) (kind kind' : Kind) :
    mov value (.reg r kind) false = mov value (.reg r kind') false := by
  cases value <;> rfl

/-- The result register has received a value of its width. -/
theorem computes_movInto (hres : gpr? result = some res) (hfloat : value.kind.isFloating = false)
    (hkind : value.kind.isWord = result.kind.isWord) : Computes S C (mov value result false)
      (fun s => S.Readable s ∧ S.Accessible C.frame s value) fun _ s c =>
        ∃ a, S.value? C.frame s value = some a ∧
        (c.reg res).setWidth (Width.ofWide result.kind.isWord).bits =
          a.setWidth (Width.ofWide result.kind.isWord).bits ∧
        s.Keeps (· = res) (fun _ => False) (fun _ => False) c := by
  cases result with
  | reg r kind =>
    rw [mov_reg value r kind value.kind, ← hkind]
    exact @computes_movResult S C value (.reg r value.kind) res hres rfl hfloat
  | stack | const | addr => cases hres

/-- The result register has the value shifted by the count, with both as they were before. -/
def ShiftedBy (S : Site) (frame : Frame) (op : ShiftOp) (wide : Bool) (res : Gpr) (value : Operand)
    (n : Nat) : Assertion :=
  fun s c => ∃ a, S.value? frame s value = some a ∧ (c.reg res).setWidth (Width.ofWide wide).bits =
    op.eval (a.setWidth (Width.ofWide wide).bits) (n % (Width.ofWide wide).bits)

/-- A value that has been moved is shifted by a count that the move has left as it was. -/
theorem computes_shiftMoved {x : Lower Unit} {n : Machine → Nat} (hres : gpr? result = some res)
    (hfloat : value.kind.isFloating = false) (hkind : value.kind.isWord = result.kind.isWord)
    (hn : ∀ s c, s.Keeps (· = res) (fun _ => False) (fun _ => False) c → n c = n s)
    (hx : Computes S C x (fun _ => True) fun _ s => Shifted op result.kind.isWord res (n s) s) :
    Computes S C (mov value result false >>= fun _ => x)
      (fun s => S.Readable s ∧ S.Accessible C.frame s value)
      fun _ s => ShiftedBy S C.frame op result.kind.isWord res value (n s) s := by
  refine (computes_movInto hres hfloat hkind).bind (fun _ => hx) ?_
  rintro s _ c - ⟨a, ha, hvalue, hkeeps⟩
  refine ⟨trivial, fun _ c' hc => ⟨a, ha, ?_⟩⟩
  rw [hc.2, hvalue, hn s c hkeeps]

/-- The bits of a constant count that matter. -/
theorem and_shiftMask (c : Constant) (k : Kind) :
    c.low32.toNat &&& k.shiftMask = c.bits.toNat % (Width.ofWide k.isWord).bits := by
  have hmask : k.shiftMask = (Width.ofWide k.isWord).bits - 1 := by
    cases k <;> rfl
  have hlow : c.low32.toNat = c.bits.toNat % 2 ^ 32 := UInt64.toNat_toUInt32 _
  rw [hmask, hlow]
  cases k.isWord with
  | true => exact (Nat.and_two_pow_sub_one_eq_mod _ 6).trans (Nat.mod_mod_of_dvd _ (by decide))
  | false => exact (Nat.and_two_pow_sub_one_eq_mod _ 5).trans (Nat.mod_mod_of_dvd _ (by decide))

/-- A constant count of 0 needs no code. -/
theorem computes_shiftConstant {n : Nat} (wide : Bool) (hn : n < (Width.ofWide wide).bits) :
    Computes S C (if n ≠ 0 then emit (.shiftImm (shiftInstr op) wide res (UInt8.ofNat n))
      else pure ())
      (fun _ => True) fun _ s => Shifted op wide res n s := by
  by_cases hzero : n = 0
  · rw [if_neg (not_not_intro hzero)]
    refine (computes_pure ()).mono fun s _ _ => ⟨trivial, fun _ c hc => ⟨by rw [hc.2.1], ?_⟩⟩
    rw [hc.2.1, hzero, Nat.zero_mod, ShiftOp.eval_zero]
  · rw [if_pos hzero]
    have hbyte : (UInt8.ofNat n).toNat = n := by
      exact UInt8.toNat_ofNat_of_lt'
        (Nat.lt_of_lt_of_le hn (Nat.le_trans (Width.bits_le _) (by decide)))
    refine computes_emit (Instr.encodable_of_none rfl) (fun s next _ => ?_) fun _ _ h => h.1
    exact (executes_shift (.imm (UInt8.ofNat n))).mono fun _ c hc => hbyte ▸ hc

/-- The instruction reads the low byte of `rcx`. -/
theorem computes_shiftCl (wide : Bool) :
    Computes S C (emit (.shiftCl (shiftInstr op) wide res)) (fun _ => True)
    fun _ s => Shifted op wide res (s.reg .rcx).toNat s := by
  refine computes_emit (Instr.encodable_of_none rfl) (fun s next _ => ?_) fun _ _ h => h.1
  refine (executes_shift .cl).mono fun _ c hc => ⟨hc.1, hc.2.trans (congrArg _ ?_)⟩
  have hlow : (low (s.reg .rcx) .byte).toNat = (s.reg .rcx).toNat % 2 ^ 8 := by
    simp [low, Width.bits, Width.bytes]
    omega
  rw [amount, hlow]
  cases wide with
  | true => exact Nat.mod_mod_of_dvd _ (by decide)
  | false => exact Nat.mod_mod_of_dvd _ (by decide)

theorem computes_shift (hres : gpr? result = some res) (hfloat : value.kind.isFloating = false)
    (hkind : value.kind.isWord = result.kind.isWord) (hcount : count.CanCount result) :
    Computes S C (shift op value count result)
      (fun s => S.Readable s ∧ S.Accessible C.frame s value)
      fun _ s => ShiftedBy S C.frame op result.kind.isWord res value (count.counted s).toNat s := by
  rw [shift, gpr_eq_pure hres, pure_bind]
  cases count with
  | const c =>
    have hlt :
        c.low32.toNat &&& result.kind.shiftMask < (Width.ofWide result.kind.isWord).bits := by
      rw [and_shiftMask]
      exact Nat.mod_lt _ (by cases result.kind.isWord <;> decide)
    refine (computes_shiftMoved hres hfloat hkind (fun _ _ _ => rfl)
      (computes_shiftConstant _ hlt)).mono
      fun s _ hs => ⟨hs, ?_⟩
    rintro _ c' ⟨a, ha, hresult⟩
    rw [and_shiftMask, Nat.mod_mod] at hresult
    exact ⟨a, ha, hresult⟩
  | reg r kind =>
    obtain ⟨rfl, hresult⟩ := hcount
    have hne : res ≠ .rcx := by
      rintro rfl
      obtain ⟨r, hr, hgpr⟩ := register?_of_gpr? hres
      exact hresult (hr.trans (congrArg some (eq_register_of_gpr hgpr)))
    have hrcx : gpr (.reg Gpr.rcx.register kind) = pure Gpr.rcx :=
      gpr_eq_pure (gpr?_register .rcx kind)
    dsimp only
    rw [hrcx, pure_bind, if_neg (not_not_intro rfl), if_neg hne]
    exact computes_shiftMoved hres hfloat hkind
      (fun _ _ h => congrArg BitVec.toNat (h.gprs .rcx hne.symm)) (computes_shiftCl _)
  | stack | addr => cases hcount

/-- There is no code for other counts. -/
theorem refused_shift (hcount : ¬ count.CanCount result) :
    Refused (lower (.shift op value count result)) := by
  rw [lower, shift]
  cases hres : gpr? result with
  | none => exact (refused_gpr hres).bind
  | some res =>
    rw [gpr_eq_pure hres, pure_bind]
    cases count with
    | const c => exact absurd trivial hcount
    | reg r kind =>
      cases hgpr : gpr? (.reg r kind) with
      | none => exact (refused_gpr hgpr).bind
      | some g =>
        dsimp only
        rw [gpr_eq_pure hgpr, pure_bind]
        by_cases hg : g = .rcx
        · obtain ⟨r', hr', hgpr'⟩ := register?_of_gpr? hres
          have hsame : res = .rcx := by
            by_contra hne
            subst hg
            refine hcount ⟨eq_register_of_gpr hgpr, fun h => hne ?_⟩
            cases hr'.symm.trans h
            exact Option.some.inj (hgpr'.symm.trans (Gpr.ofRegister?_register .rcx))
          rw [if_neg (not_not_intro hg), if_pos hsame]
          exact refused_unhandled _
        · rw [if_pos hg]
          exact refused_unhandled _
    | stack | addr => exact refused_unhandled _

end Operations

end Lower

open Lower

/-- From any state in which the value can be accessed, the code of a shift runs to its end and
leaves in the result register the value that the operand has had, shifted at the width of the kind.
The count is reduced to that width, in the same way for a constant and for `rcx`, and the sign bit
fills an arithmetic shift to the right. The value may be in `rcx` too, or its address computed from
it. Any other count is refused. -/
theorem exists_run_shifted :
    (∀ (I : Installation) (op : ShiftOp) (value count result : Operand) (res : Gpr)
      (start stop : Nat) (machine : Machine),
      I.HasCode (.shift op value count result) start stop → value.kind.isFloating = false →
        result.kind.isFloating = false → value.kind.isWord = result.kind.isWord →
        gpr? result = some res →
        count.CanCount result → machine.Loaded I.base I.image →
        machine.rip = I.base + BitVec.ofNat 64 start →
        I.site.Readable machine → I.site.Accessible I.source.frame machine value →
        ∃ machine' a, machine.RunsTo (I.base + BitVec.ofNat 64 stop) machine' ∧
          I.site.value? I.source.frame machine value = some a ∧
          (machine'.reg res).setWidth result.kind.width.bits =
            op.eval (a.setWidth result.kind.width.bits)
              ((count.counted machine).toNat % result.kind.width.bits)) ∧
    ∀ (op : ShiftOp) (value count result : Operand), ¬ count.CanCount result → ∀ d, ∃ detail d',
      operation (.shift op value count result) d = .error (.unhandled "shift" detail) d' := by
  refine ⟨?_, fun op value count result hcount => operation_of_refused (refused_shift hcount)⟩
  intro I op value count result res start stop machine hcode hfloat hfloat' hkind hres hcount
    hloaded hrip hreadable haccessible
  have hlower : ∀ C, C.frame = I.source.frame →
    Computes I.site C (lower (.shift op value count result))
      (fun s => I.site.Readable s ∧ I.site.Accessible I.source.frame s value)
      fun _ s =>
        ShiftedBy I.site I.source.frame op result.kind.isWord res value (count.counted s).toNat s :=
    fun C hC => hC ▸ computes_shift hres hfloat hkind hcount
  obtain ⟨machine', hrun, a, ha, hresult⟩ :=
    hcode.exists_run hlower hloaded hrip ⟨hreadable, haccessible⟩
  rw [Site.value?_core] at ha
  refine ⟨machine', a, hrun, ha, ?_⟩
  rw [Kind.width_eq_ofWide hfloat']
  cases count <;> exact hresult

/-- A negative number in `rcx`, shifted by what is in `rcx`; and a count in another register. -/
theorem exists_run_shifted_rcx :
    let value : Operand := .reg Gpr.rcx.register .int
    let result : Operand := .reg Gpr.rax.register .int
    (∃ (I : Installation) (start stop : Nat) (machine' : Machine),
      I.HasCode (.shift .shr value value result) start stop ∧
      (I.enter (Machine.initial.setReg .rcx 0xFFFFFFA4) start).RunsTo
        (I.base + BitVec.ofNat 64 stop) machine' ∧
      (machine'.reg .rax).setWidth 32 = -6#32) ∧
    ∀ d, ∃ detail d', operation (.shift .shr value result result) d =
      .error (.unhandled "shift" detail) d' := by
  intro value result
  refine ⟨?_, exists_run_shifted.2 .shr value result result fun h => absurd h.1 (by decide)⟩
  obtain ⟨I, start, stop, -, -, hcode, hloaded, hrip, hreadable⟩ :=
    Installation.exists_entered
      ⟨{ Options.standard with useStackBanging := false }, ⟨true, true⟩, 4096⟩
      (.shift .shr value value result) 0x10000000 (Machine.initial.setReg .rcx 0xFFFFFFA4)
        (by decide +kernel) rfl
  obtain ⟨machine', a, hrun, ha, hresult⟩ :=
    exists_run_shifted.1 I .shr value value result .rax start stop _ hcode rfl rfl
    rfl rfl ⟨rfl, by decide⟩ hloaded hrip hreadable nofun
  cases ha
  refine ⟨I, start, stop, machine', hcode, hrun, hresult.trans ?_⟩
  change ShiftOp.eval .shr ((0xFFFFFFA4 : Word).setWidth 32) ((0xFFFFFFA4 : Word).toNat % 32) = _
  decide +kernel

end MachineCode
