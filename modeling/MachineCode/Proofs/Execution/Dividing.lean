import MachineCode.Proofs.Execution.Accessing
import MachineCode.Proofs.Execution.Compares

/-! Divisions. They fault where the divisor is zero, or where a quotient does not fit, and there is
code in front that skips a division of the second kind. -/
namespace MachineCode

open X64 Machine

/-! ### Quotients -/

/-- The least number divided by -1, at this width: there is no quotient. -/
def Overflows (w : Width) (a b : Word) : Prop :=
  a.setWidth w.bits = BitVec.intMin w.bits ∧ b.setWidth w.bits = -1

instance (w : Width) (a b : Word) : Decidable (Overflows w a b) :=
  inferInstanceAs (Decidable (_ ∧ _))

/-- The quotient rounded toward zero, or its remainder. Of the least number and -1 these are the
least number again and zero. -/
def divided (isSigned rem : Bool) {n : Nat} (x y : BitVec n) : BitVec n :=
  match isSigned, rem with
  | true, false => x.sdiv y
  | true, true => x.srem y
  | false, false => x / y
  | false, true => x % y

/-- Where there is no quotient that fits. -/
theorem divided_of_overflows {wide rem : Bool} {a b : Word} (h : Overflows (.ofWide wide) a b) :
    divided true rem (a.setWidth (Width.ofWide wide).bits) (b.setWidth (Width.ofWide wide).bits) =
      if rem then 0 else BitVec.intMin _ := by
  rw [h.1, h.2]
  cases rem with
  | false => exact BitVec.intMin_sdiv_neg_one
  | true => cases wide <;> decide

namespace Machine

/-- A number with copies of its sign in front. -/
theorem extended_pair {b : Nat} (x : BitVec b) :
    BitVec.ofNat (2 * b) ((if x.msb then 2 ^ b - 1 else 0) * 2 ^ b + x.toNat) =
      x.signExtend (2 * b) := by
  have hlt := x.isLt
  have hpow : 2 ^ (2 * b) = 2 ^ b * 2 ^ b := by rw [Nat.two_mul, Nat.pow_add]
  have hle : 2 ^ b ≤ 2 ^ b * 2 ^ b := Nat.le_mul_of_pos_left _ (Nat.two_pow_pos b)
  refine BitVec.eq_of_toNat_eq ?_
  rw [BitVec.toNat_ofNat, BitVec.toNat_signExtend, BitVec.toNat_setWidth_of_le (by omega), hpow]
  split
  · rw [Nat.sub_mul, Nat.one_mul, Nat.mod_eq_of_lt (by omega)]
    omega
  · rw [Nat.zero_mul, Nat.zero_add, Nat.mod_eq_of_lt (by omega), Nat.add_zero]

theorem toInt_bounds (w : Width) (x : BitVec w.bits) :
    x.toInt ≠ 2 ^ 127 ∧ ¬ (x.toInt < -2 ^ (w.bits - 1) ∨ 2 ^ (w.bits - 1) - 1 < x.toInt) := by
  have hle := x.le_toInt
  have hlt := x.toInt_lt
  have hpow : (2 : Int) ^ (w.bits - 1) < 2 ^ 127 := by cases w <;> decide
  omega

/-- The upper half of a dividend spreads the sign of its lower half, or is zero. -/
def Spreads (signed : Bool) (w : Width) (hi a : Word) : Prop :=
  hi.toNat = if signed && (a.setWidth w.bits).msb then 2 ^ w.bits - 1 else 0

section Quotient

variable {wide signed : Bool} {w : Width} {a d hi : Word}

theorem toNat_low_eq (w : Width) (a : Word) : (low a w).toNat = (a.setWidth w.bits).toNat := by
  rw [low, BitVec.toNat_setWidth_of_le w.bits_le]

theorem quotient_signed (hd : low d (.ofWide wide) ≠ 0) (hhi : Spreads true (.ofWide wide) hi a)
    (pc : Word) :
    quotient true (.ofWide wide) hi (low a (.ofWide wide)) (low d (.ofWide wide)) pc =
      if Overflows (.ofWide wide) a d then .error (.divideError pc)
      else .ok (BitVec.ofInt 64
        (divided true false (a.setWidth (Width.ofWide wide).bits) (d.setWidth _)).toInt,
        BitVec.ofInt 64
          (divided true true (a.setWidth (Width.ofWide wide).bits) (d.setWidth _)).toInt) := by
  let w := Width.ofWide wide
  let x := a.setWidth w.bits
  let y := d.setWidth w.bits
  have hpair : BitVec.ofNat (2 * w.bits) (hi.toNat * 2 ^ w.bits + (low a w).toNat) =
      x.signExtend (2 * w.bits) := by
    rw [hhi, toNat_low_eq]
    exact extended_pair x
  have hdividend : (x.signExtend (2 * w.bits)).toInt = x.toInt :=
    BitVec.toInt_signExtend_of_le (by omega)
  have hdivisor : (signExtend (low d w) w).toInt = y.toInt := by
    rw [signExtend, setWidth_low, BitVec.toInt_signExtend_of_le w.bits_le]
  rw [quotient, if_neg hd, if_pos rfl]
  simp only [cast_pow2]
  rw [pow2_eq, hpair, hdividend, hdivisor]
  by_cases hover : Overflows w a d
  · have hhuge : x.toInt.tdiv y.toInt = 2 ^ ((Width.ofWide wide).bits - 1) := by
      change (a.setWidth w.bits).toInt.tdiv (d.setWidth w.bits).toInt = _
      rw [hover.1, hover.2]
      cases wide <;> decide
    rw [if_pos hover, hhuge, if_neg (by cases wide <;> decide), if_pos (.inr (by omega))]
  · have hquotient : x.toInt.tdiv y.toInt = (x.sdiv y).toInt := by
      refine (BitVec.toInt_sdiv_of_ne_or_ne x y ?_).symm
      by_contra hboth
      rw [not_or, not_not, not_not] at hboth
      exact hover hboth
    obtain ⟨hhuge, hrange⟩ := toInt_bounds w (x.sdiv y)
    rw [if_neg hover, hquotient, if_neg hhuge, if_neg hrange, ← BitVec.toInt_srem]
    rfl

theorem quotient_unsigned (hd : low d w ≠ 0) (pc : Word) :
    quotient false w 0 (low a w) (low d w) pc =
    .ok ((divided false false (a.setWidth w.bits) (d.setWidth w.bits)).setWidth 64,
      (divided false true (a.setWidth w.bits) (d.setWidth w.bits)).setWidth 64) := by
  have hlt : (a.setWidth w.bits).toNat / (d.setWidth w.bits).toNat < 2 ^ w.bits :=
    Nat.lt_of_le_of_lt (Nat.div_le_self _ _) (BitVec.isLt _)
  have hzero : (0 : Word).toNat * 2 ^ w.bits + (low a w).toNat = (a.setWidth w.bits).toNat := by
    rw [show (0 : Word).toNat = 0 from rfl, Nat.zero_mul, Nat.zero_add, toNat_low_eq]
  rw [quotient, if_neg hd, if_neg Bool.false_ne_true]
  simp only [pow2_eq]
  rw [hzero, toNat_low_eq, if_neg (Nat.not_le.mpr hlt), divided, divided, ← BitVec.toNat_udiv,
    ← BitVec.toNat_umod, BitVec.ofNat_toNat, BitVec.ofNat_toNat]

/-- By zero, or without a quotient that fits. -/
theorem quotient_error (hhi : Spreads signed (.ofWide wide) hi a)
    (h : low d (.ofWide wide) = 0 ∨ signed = true ∧ Overflows (.ofWide wide) a d) (pc : Word) :
    quotient signed (.ofWide wide) hi (low a (.ofWide wide)) (low d (.ofWide wide)) pc =
      .error (.divideError pc) := by
  by_cases hzero : low d (.ofWide wide) = 0
  · rw [quotient, if_pos hzero]
  · obtain ⟨rfl, hover⟩ := h.resolve_left hzero
    rw [quotient_signed hzero hhi, if_pos hover]

theorem exists_quotient (hhi : Spreads signed (.ofWide wide) hi a) (hd : low d (.ofWide wide) ≠ 0)
    (hfits : signed = true → ¬ Overflows (.ofWide wide) a d) : ∃ q r : Word,
      (∀ pc, quotient signed (.ofWide wide) hi (low a (.ofWide wide))
        (low d (.ofWide wide)) pc = .ok (q, r)) ∧
      q.setWidth _ = divided signed false (a.setWidth (Width.ofWide wide).bits) (d.setWidth _) ∧
      r.setWidth _ = divided signed true (a.setWidth (Width.ofWide wide).bits) (d.setWidth _) := by
  have hle := (Width.ofWide wide).bits_le
  cases signed with
  | true =>
    refine ⟨_, _, fun pc => (quotient_signed hd hhi pc).trans (if_neg (hfits rfl)), ?_, ?_⟩ <;>
      exact Lower.setWidth_ofInt hle _
  | false =>
    obtain rfl : hi = 0 := BitVec.eq_of_toNat_eq hhi
    refine ⟨_, _, quotient_unsigned hd, ?_, ?_⟩ <;>
      rw [BitVec.setWidth_setWidth_of_le _ hle, BitVec.setWidth_eq]

end Quotient

end Machine

/-! ### Instructions -/

namespace Comparison

/-- Equal operands, at the width of the compare. -/
theorem cond_equal (w : Width) (a b : Word) :
    (words w a b).flags.cond .e = (a.setWidth w.bits == b.setWidth w.bits) :=
  Flags.zf_sub

end Comparison

namespace Machine

variable {s : Machine} {next : Word} {g : Gpr}

/-- The sign of the dividend is spread over the other register of the pair. -/
theorem executes_spread (wide : Bool) :
    Executes (if wide then Instr.cqo else Instr.cdq).decoded next s fun c =>
    ∃ v, c = s.setReg .rdx v ∧ Spreads true (.ofWide wide) (low v (.ofWide wide)) (s.reg .rax) := by
  cases wide with
  | true =>
    refine (yields_setReg .rdx (f := fun m => if (m.reg .rax).msb then -1 else 0) fun _ => rfl).mono
      fun _ c hc =>
      ⟨_, hc, ?_⟩
    change (low (if (s.reg .rax).msb then -1 else 0) .qword).toNat =
      if ((s.reg .rax).setWidth 64).msb then 2 ^ 64 - 1 else 0
    rw [low_qword, BitVec.setWidth_eq]
    split <;> rfl
  | false =>
    refine (yields_setReg .rdx
      (f := fun m => if (low (m.reg .rax) .dword).getLsbD 31 then 0xFFFFFFFF else 0)
      fun _ => rfl).mono fun _ c hc => ⟨_, hc, ?_⟩
    have hsign : (low (s.reg .rax) .dword).getLsbD 31 = ((s.reg .rax).setWidth 32).msb := by
      rw [BitVec.msb_eq_getLsbD_last, low, BitVec.getLsbD_setWidth]
      rfl
    change (low (if (low (s.reg .rax) .dword).getLsbD 31 then 0xFFFFFFFF else 0) .dword).toNat =
      if ((s.reg .rax).setWidth 32).msb then 2 ^ 32 - 1 else 0
    rw [hsign]
    split <;> rfl

/-- The state in which these words have been written to `rdx` and `rax`. -/
def withPair (s : Machine) (w : Width) (hi lo : Word) : Machine :=
  (s.setReg .rax (merge (s.reg .rax) lo w)).setReg .rdx (merge (s.reg .rdx) hi w)

section WithPair

variable {w : Width} {hi lo : Word}

@[simp] theorem setWidth_withPair_rax :
    ((s.withPair w hi lo).reg .rax).setWidth w.bits = lo.setWidth w.bits := by
  rw [withPair, reg_setReg_of_ne (by decide), reg_setReg_self, setWidth_merge]

@[simp] theorem setWidth_withPair_rdx :
    ((s.withPair w hi lo).reg .rdx).setWidth w.bits = hi.setWidth w.bits := by
  rw [withPair, reg_setReg_self, setWidth_merge]

theorem keeps_withPair {G : Gpr → Prop} {X : Xmm → Prop} {A : Word → Prop} (hrax : G .rax)
    (hrdx : G .rdx) :
    s.Keeps G X A (s.withPair w hi lo) :=
  (keeps_setReg hrax _).trans (keeps_setReg hrdx _)

/-- The lower half is written first. -/
theorem yields_writePair :
    Yields (writeReg .rax w lo >>= fun _ => writeReg .rdx w hi) s fun _ c =>
      c = s.withPair w hi lo := by
  refine (yields_writeReg .rax w lo).bind fun _ c hc =>
    (yields_writeReg .rdx w hi).mono fun _ c' hc' => ?_
  rw [hc', hc, reg_setReg_of_ne (by decide), withPair]

end WithPair

/-- A division with a quotient that fits leaves it and the remainder in the pair of its
registers. -/
theorem yields_divide {signed : Bool} {w : Width} {x : Rm} {d q r : Word}
    (hx : s.ReadsRm next w d x)
    (h : ∀ pc, quotient signed w (low (s.reg .rdx) w) (low (s.reg .rax) w) d pc = .ok (q, r)) :
    Yields (divide signed w x next) s fun _ c => c = s.withPair w r q := by
  refine (yields_readRm hx).after (yields_get.bind fun machine c hc => ?_)
  obtain ⟨rfl, rfl⟩ := hc
  have hquotient : quotient signed w (low (machine.reg .rdx) w) (low (machine.reg .rax) w) d
      machine.pc = .ok (q, r) :=
    h machine.pc
  rw [hquotient]
  exact yields_writePair

end Machine

end MachineCode

namespace MachineCode.Lower

open X64 Machine Chunk

variable {S : Site} {C : Context} {wide rem : Bool} {divisor : Gpr} {done : Label}
  {A : Machine → Prop}

/-! ### The check in front -/

/-- The registers that are overwritten in front of the division. -/
def Prepares (wide : Bool) (g : Gpr) : Prop := g = .rdx ∨ wide = true ∧ g = scratch

/-- Nothing else has been overwritten. -/
abbrev Prepared (wide : Bool) : Assertion :=
  fun s c => s.Keeps (Prepares wide) (fun _ => False) (fun _ => False) c

/-- An instruction that compares with a constant. -/
theorem computes_cmpImm {g : Gpr} {imm : Int32} :
    Computes S C (emit (.aluImm .cmp wide (.reg g) imm)) A fun _ s c =>
    ∃ flags, c = { s with flags := flags } ∧ flags.cond .e =
      ((s.reg g).setWidth (Width.ofWide wide).bits ==
        (BitVec.ofInt 64 imm.toInt).setWidth (Width.ofWide wide).bits) := by
  refine (computes_cmp (a := fun s => low (s.reg g) (.ofWide wide))
    (b := fun _ => BitVec.ofInt 64 imm.toInt)
    (Instr.encodable_of_none rfl) rfl (fun s _ => readsRm_reg g _) fun s _ =>
      readsSource_imm _ _).mono
    fun s _ hs => ⟨hs, fun _ c hc => ⟨_, hc, ?_⟩⟩
  rw [Comparison.cond_equal, setWidth_low]

/-- The dividend is compared with the least number. -/
theorem computes_cmpLeast (wide : Bool) : Computes S C
    (if wide then do
      emit (.movImm true scratch 0x8000000000000000)
      emit (.alu .cmp true .rax (.reg scratch))
    else emit (.aluImm .cmp false (.reg .rax) Int32.minValue)) A fun _ s c => Prepared wide s c ∧
      c.flags.cond .e = ((s.reg .rax).setWidth (Width.ofWide wide).bits ==
        BitVec.intMin (Width.ofWide wide).bits) := by
  cases wide with
  | false =>
    rw [if_neg Bool.false_ne_true]
    refine computes_cmpImm.mono fun s _ hs => ⟨hs, ?_⟩
    rintro _ _ ⟨flags, rfl, hflags⟩
    exact ⟨keeps_flags flags, hflags⟩
  | true =>
    rw [if_pos rfl]
    refine (computes_movImm true scratch _).bind
      (fun _ => computes_cmp (A := fun _ => True) (w := .qword)
      (a := fun s => low (s.reg .rax) .qword) (b := fun s => low (s.reg scratch) .qword)
        (Instr.encodable_of_none rfl)
      rfl (fun s _ => readsRm_reg .rax _) fun s _ => (readsRm_reg scratch _).source) ?_
    rintro s _ _ - rfl
    refine ⟨trivial, ?_⟩
    rintro _ _ rfl
    refine ⟨(keeps_setReg (.inr ⟨rfl, rfl⟩) _).trans (keeps_flags _), ?_⟩
    rw [Comparison.cond_equal, setWidth_low, setWidth_low, reg_setReg_self,
      reg_setReg_of_ne (by decide)]
    rfl

theorem Prepared.reg_eq {s c : Machine} {g : Gpr} (h : Prepared wide s c) (hrdx : g ≠ .rdx)
    (hscratch : wide = true → g ≠ scratch) : c.reg g = s.reg g := by
  refine h.gprs _ ?_
  rintro (h | ⟨hwide, h⟩)
  · exact hrdx h
  · exact hscratch hwide h

/-- The dividend is the least number. -/
def IsLeast (wide : Bool) (s : Machine) : Prop :=
  (s.reg .rax).setWidth (Width.ofWide wide).bits = BitVec.intMin (Width.ofWide wide).bits

/-- The divisor decides about the division of the least number. Its remainder is in place
already. -/
def Undecided (wide rem : Bool) : Assertion :=
  fun s c => Prepared wide s c ∧ IsLeast wide s ∧ (rem = true → c.reg .rdx = 0)

/-- The division is reached. -/
def Admitted (wide : Bool) (divisor : Gpr) : Assertion := fun s c =>
  Prepared wide s c ∧ ¬ Overflows (.ofWide wide) (s.reg .rax) (s.reg divisor)

/-- The division is skipped. The registers hold what belongs into the result. -/
def Skipped (wide rem : Bool) (divisor : Gpr) : Assertion := fun s c =>
  Prepared wide s c ∧ Overflows (.ofWide wide) (s.reg .rax) (s.reg divisor) ∧
    (rem = true → c.reg .rdx = 0)

/-- Where control leaves the check: behind the division, or to it. -/
def leaves (wide rem : Bool) (divisor : Gpr) (done normal : Label)
    (l : Label) : Assertion := fun s c =>
  l = done ∧ Skipped wide rem divisor s c ∨ l = normal ∧ Admitted wide divisor s c

variable {normal : Label}

/-- A dividend that is not the least number is divided. -/
theorem runs_unlessLeast : Runs S C (jccShort .ne normal)
    (fun s c => Prepared wide s c ∧
      c.flags.cond .e =
        ((s.reg .rax).setWidth (Width.ofWide wide).bits == BitVec.intMin (Width.ofWide wide).bits))
    (fun _ s c => Prepared wide s c ∧ IsLeast wide s) (leaves wide rem divisor done normal) := by
  refine (runs_jccShort .ne normal).mono ?_ ?_
  · rintro _ s c ⟨⟨hc, hflags⟩, hcond⟩
    have hequal : c.flags.cond .e = true := by simpa [Flags.cond] using hcond
    exact ⟨hc, eq_of_beq (hflags.symm.trans hequal)⟩
  · rintro l s c ⟨hl, ⟨hc, hflags⟩, hcond⟩
    have hdiffer : c.flags.cond .e = false := by simpa [Flags.cond] using hcond
    refine .inr ⟨hl, hc, fun h => ?_⟩
    rw [hdiffer, h.1, beq_self_eq_true] at hflags
    cases hflags

/-- A remainder by minus one is zero. -/
theorem runs_clearRemainder : Runs S C (if rem then emit (zero .rdx) else pure ())
    (fun s c => Prepared wide s c ∧ IsLeast wide s) (fun _ => Undecided wide rem)
      (leaves wide rem divisor done normal) := by
  cases rem with
  | false =>
    rw [if_neg Bool.false_ne_true]
    exact runs_pure () fun s c _ hc => ⟨hc.1, hc.2, nofun⟩
  | true =>
    rw [if_pos rfl]
    refine (computes_zero .rdx (A := fun _ => True)).runs fun s c _ hc => ⟨trivial, ?_⟩
    rintro _ _ ⟨flags, rfl⟩
    exact ⟨hc.1.trans ((keeps_flags flags).trans (keeps_setReg (.inl rfl) 0)), hc.2,
      fun _ => reg_setReg_self ..⟩

/-- The least number is divided unless the divisor is minus one. -/
theorem runs_unlessMinusOne (hrdx : divisor ≠ .rdx) (hscratch : wide = true → divisor ≠ scratch) :
    Runs S C (emit (.aluImm .cmp wide (.reg divisor) (-1)) >>= fun _ => jccShort .e done)
      (Undecided wide rem)
      (fun _ => Admitted wide divisor) (leaves wide rem divisor done normal) := by
  have hcmp : Runs S C (emit (.aluImm .cmp wide (.reg divisor) (-1))) (Undecided wide rem)
      (fun _ s c => Undecided wide rem s c ∧
        c.flags.cond .e = ((s.reg divisor).setWidth (Width.ofWide wide).bits == -1))
      (leaves wide rem divisor done normal) := by
    refine (computes_cmpImm (A := fun _ => True)).runs fun s c _ hc => ⟨trivial, ?_⟩
    rintro _ _ ⟨flags, rfl, hflags⟩
    refine ⟨⟨hc.1.trans (keeps_flags flags), hc.2⟩, ?_⟩
    rw [Prepared.reg_eq hc.1 hrdx hscratch] at hflags
    refine hflags.trans (congrArg _ ?_)
    cases wide <;> decide
  refine hcmp.bind fun _ => (runs_jccShort .e done).mono ?_ ?_
  · rintro _ s c ⟨⟨⟨hc, -⟩, hflags⟩, hcond⟩
    refine ⟨hc, fun h => ?_⟩
    rw [hcond, h.2, beq_self_eq_true] at hflags
    cases hflags
  · rintro l s c ⟨hl, ⟨⟨hc, hleast, hzero⟩, hflags⟩, hcond⟩
    exact .inl ⟨hl, hc, ⟨hleast, eq_of_beq (hflags.symm.trans hcond)⟩, hzero⟩

/-- The steps of the check. -/
theorem guardDivision_eq : guardDivision wide rem divisor done = newLabel >>= fun normal =>
    (if wide then do
      emit (.movImm true scratch 0x8000000000000000)
      emit (.alu .cmp true .rax (.reg scratch))
    else emit (.aluImm .cmp false (.reg .rax) Int32.minValue)) >>= fun _ =>
    jccShort .ne normal >>= fun _ => (if rem then emit (zero .rdx) else pure ()) >>= fun _ =>
    (emit (.aluImm .cmp wide (.reg divisor) (-1)) >>= fun _ => jccShort .e done) >>= fun _ =>
      Lower.bind normal := by
  cases wide <;> cases rem <;> simp [guardDivision]

/-- The division is reached unless there is no quotient. -/
theorem runs_guardDivision (hrdx : divisor ≠ .rdx) (hscratch : wide = true → divisor ≠ scratch) :
    Runs S C (guardDivision wide rem divisor done) (fun s c => c = s)
      (fun _ => Admitted wide divisor)
      fun l s c => l = done ∧ Skipped wide rem divisor s c := by
  rw [guardDivision_eq]
  refine runs_newLabel fun normal => ?_
  have hfirst : Computes S C _ (fun _ => True) _ := computes_cmpLeast wide
  have hcmp : Runs S C _ (fun s c => c = s) _ (leaves wide rem divisor done normal) :=
    hfirst.runs fun s c _ hc => ⟨trivial, fun _ _ h => hc ▸ h⟩
  have hchecks :=
      ((hcmp.bind fun _ => runs_unlessLeast).bind fun _ => runs_clearRemainder).bind fun _ =>
    runs_unlessMinusOne hrdx hscratch
  have hall := hchecks.join (R := fun _ => Admitted wide divisor) (fun _ _ _ => id) fun _ _ _ => id
  simpa only [bind_assoc] using hall

/-! ### The division -/

/-- The fault of a division, if there is one: it is by zero, or, where this is not checked for,
there is no quotient. -/
def divideFault? (unchecked : Bool) (w : Width) (a d : Word) : Option (Word → Fault) :=
  if low d w = 0 ∨ unchecked = true ∧ Overflows w a d then some .divideError else none

/-- The fault of a division by `d` with a quotient that fits, if there is one. -/
def divideError? (w : Width) (d : Word) : Option (Word → Fault) :=
  if low d w = 0 then some .divideError else none

section Faults

variable {unchecked : Bool} {w : Width} {a a' d : Word} {e : Word → Fault}

theorem divideFault?_eq_some :
    divideFault? unchecked w a d = some e ↔
    (low d w = 0 ∨ unchecked = true ∧ Overflows w a d) ∧ e = .divideError := by
  rw [divideFault?, Option.ite_none_right_eq_some, Option.some.injEq, eq_comm (a := e)]

theorem divideFault?_eq_none :
    divideFault? unchecked w a d = none ↔ low d w ≠ 0 ∧ (unchecked = true → ¬ Overflows w a d) := by
  simp [divideFault?]

/-- Only what is compared counts. -/
theorem divideFault?_congr (h : a.setWidth w.bits = a'.setWidth w.bits) :
    divideFault? unchecked w a d = divideFault? unchecked w a' d := by
  have hover : Overflows w a d ↔ Overflows w a' d := by rw [Overflows, Overflows, h]
  simp only [divideFault?, hover]

theorem divideFault?_of_fits (h : unchecked = true → ¬ Overflows w a d) :
    divideFault? unchecked w a d = divideError? w d := by
  have hnot : ¬ (unchecked = true ∧ Overflows w a d) := fun hboth => h hboth.1 hboth.2
  simp [divideFault?, divideError?, hnot]

/-- Without a quotient the divisor is not zero. -/
theorem Overflows.ne_zero {wide : Bool}
    (h : Overflows (.ofWide wide) a d) : low d (.ofWide wide) ≠ 0 := by
  rw [low, h.2]
  cases wide <;> decide

end Faults

/-- Where the result is. -/
def outRegister (rem : Bool) : Gpr := if rem then .rdx else .rax

/-- The registers that the code of a division overwrites: the scratch register if there is a wide
constant in the check. -/
def Overwrites (guarded : Bool) (g : Gpr) : Prop :=
  (g = .rax ∨ g = .rdx) ∨ guarded = true ∧ g = scratch

/-- The result of the division of `rax` is in its register. -/
structure Divided (isSigned rem wide guarded : Bool) (divisor : Gpr) (s c : Machine) : Prop where
  keeps : s.Keeps (Overwrites guarded) (fun _ => False) (fun _ => False) c
  result : (c.reg (outRegister rem)).setWidth _ =
    divided isSigned rem ((s.reg .rax).setWidth (Width.ofWide wide).bits)
      ((s.reg divisor).setWidth _)

/-- The same division, after registers in front of it that do not belong to it. -/
theorem Divided.after {isSigned guarded guarded' : Bool} {s c c' : Machine}
    (h : Divided isSigned rem wide guarded' divisor c c')
    (hkeeps : s.Keeps (Overwrites guarded) (fun _ => False) (fun _ => False) c)
    (hrax : c.reg .rax = s.reg .rax) (hdivisor : c.reg divisor = s.reg divisor)
    (hle : guarded' = true → guarded = true) :
    Divided isSigned rem wide guarded divisor s c' := by
  refine ⟨hkeeps.trans (h.keeps.mono ?_ (fun _ => id) fun _ => id),
    by rw [h.result, hrax, hdivisor]⟩
  rintro g (hg | ⟨hguarded, hg⟩)
  · exact .inl hg
  · exact .inr ⟨hle hguarded, hg⟩

/-- The instruction that divides, with its offset taken in front of it. -/
theorem points_divide (signed rem : Bool) {i : Instr} (hi : i.Encodable)
    (hdecoded : ∀ next, execute i.decoded next =
      Machine.divide signed (.ofWide wide) (.reg divisor) next) :
    Points S C (position >>= fun pc => emit i >>= fun _ => pure pc) fun pc pre new _ =>
      S.Traps (fun s => Spreads signed (.ofWide wide)
        (low (s.reg .rdx) (.ofWide wide)) (s.reg .rax))
        (fun s => divideFault? signed (.ofWide wide) (s.reg .rax) (s.reg divisor))
        (Divided signed rem wide false divisor) pc pre new := by
  refine points_emit hi (fun c next e hc he => ?_) fun c next hc hnone => ?_
  · obtain ⟨hfault, rfl⟩ := divideFault?_eq_some.mp he
    rw [hdecoded]
    exact Machine.refuses_divide (readsRm_reg _ _) (quotient_error hc hfault)
  · obtain ⟨hzero, hfits⟩ := divideFault?_eq_none.mp hnone
    obtain ⟨q, r, hquotient, hq, hr⟩ := exists_quotient hc hzero hfits
    unfold Executes
    rw [hdecoded]
    refine (yields_divide (readsRm_reg _ _) hquotient).mono ?_
    rintro _ _ rfl
    refine ⟨keeps_withPair (.inl (.inl rfl)) (.inl (.inr rfl)), ?_⟩
    cases rem with
    | false => rw [outRegister, if_neg Bool.false_ne_true, setWidth_withPair_rax, hq]
    | true => rw [outRegister, if_pos rfl, setWidth_withPair_rdx, hr]

theorem points_divideUnsigned (hdivisor : divisor ≠ .rdx) :
    Points S C (divideUnsigned wide divisor) fun pc pre new _ =>
      S.Traps (fun _ => True)
        (fun s => divideFault? false (.ofWide wide) (s.reg .rax) (s.reg divisor))
        (Divided false rem wide false divisor) pc pre new := by
  have hdiv : Points S C (position >>= fun pc => emit (.div wide divisor) >>= fun _ => pure pc) _ :=
    points_divide false rem (Instr.encodable_of_none rfl) fun _ => rfl
  refine (Lays.points (computes_zero .rdx (A := fun _ => True)) fun _ => hdiv).mono ?_
  rintro pc pre _ post final - ⟨_, new₁, new₂, rfl, hlead, htrap⟩
  refine hlead.traps htrap (fun _ hs => ⟨rfl, hs⟩) ?_ fun _ _ _ _ _ => False.elim
  rintro s _ - - ⟨flags, rfl⟩
  have hrax : (({ s with flags := flags } : Machine).setReg .rdx 0).reg .rax = s.reg .rax :=
    reg_setReg_of_ne (by decide)
  have hsame : (({ s with flags := flags } : Machine).setReg .rdx 0).reg divisor = s.reg divisor :=
    reg_setReg_of_ne hdivisor.symm
  refine ⟨?_, by rw [hrax, hsame], fun c hc => hc.after ?_ hrax hsame id⟩
  · rw [reg_setReg_self]
    cases wide <;> rfl
  · exact (keeps_flags flags).trans (keeps_setReg (.inl (.inr rfl)) 0)

/-- The sign of the dividend, the division and the label behind it. -/
theorem points_signedPair (rem : Bool) (done : Label) (hrdx : divisor ≠ .rdx) : Points S C (do
    emit (if wide then .cqo else .cdq)
    let pc ← position
    emit (.idiv wide divisor)
    bind done
    return pc) fun pc pre new final =>
      S.Traps (fun _ => True)
        (fun s => divideFault? true (.ofWide wide) (s.reg .rax) (s.reg divisor))
        (Divided true rem wide false divisor) pc pre new ∧
      final.buffer.labelOffset done = some (extent (pre ++ new)) := by
  have hdiv :
      Points S C (position >>= fun pc => emit (.idiv wide divisor) >>= fun _ => pure pc) _ :=
    points_divide true rem (Instr.encodable_of_none rfl) fun _ => rfl
  have hbind := hdiv.append fun _ => lays_bind done
  have hspread : Computes S C (emit (if wide then .cqo else .cdq)) (fun _ => True) _ :=
    computes_emit (by cases wide <;> exact Instr.encodable_of_none rfl)
      (fun s next _ => executes_spread wide)
      fun _ _ ⟨_, h, _⟩ => by rw [h]; rfl
  have hall := Lays.points hspread fun _ => hbind
  simp only [bind_assoc, pure_bind] at hall
  refine hall.mono ?_
  rintro pc pre _ post final - ⟨_, new₁, _, rfl, hlead, new₂, _, rfl, htrap, rfl, hdone⟩
  simp only [List.append_nil, List.append_assoc] at hdone ⊢
  refine ⟨hlead.traps htrap (fun _ _ => ⟨rfl, trivial⟩) ?_ fun _ _ _ _ _ => False.elim, hdone⟩
  rintro s _ - - ⟨v, rfl, hv⟩
  have hrax : (s.setReg .rdx v).reg .rax = s.reg .rax := reg_setReg_of_ne (by decide)
  have hsame : (s.setReg .rdx v).reg divisor = s.reg divisor := reg_setReg_of_ne hrdx.symm
  refine ⟨?_, by rw [hrax, hsame],
    fun c hc => hc.after (keeps_setReg (.inl (.inr rfl)) v) hrax hsame id⟩
  rwa [hrax, reg_setReg_self]

/-- Where the division has been skipped. -/
theorem divided_of_skipped {s c : Machine} (hprepared : Prepared wide s c)
    (hover : Overflows (.ofWide wide) (s.reg .rax) (s.reg divisor))
    (hzero : rem = true → c.reg .rdx = 0) :
    Divided true rem wide wide divisor s c := by
  refine ⟨hprepared.mono ?_ (fun _ => id) fun _ => id, ?_⟩
  · rintro g (hg | hg)
    · exact .inl (.inr hg)
    · exact .inr hg
  · rw [divided_of_overflows hover]
    cases rem with
    | false =>
      rw [outRegister, if_neg Bool.false_ne_true, if_neg Bool.false_ne_true,
        hprepared.reg_eq (by decide) fun _ => by decide, hover.1]
    | true =>
      rw [outRegister, if_pos rfl, if_pos rfl, hzero rfl]
      exact BitVec.setWidth_zero ..

theorem points_divideSigned (hrdx : divisor ≠ .rdx)
    (hscratch : (wide && C.target.options.genSpecialDivChecks) = true → divisor ≠ scratch) :
    Points S C (divideSigned wide rem divisor) fun pc pre new _ =>
      S.Traps (fun _ => True)
        (fun s => divideFault? (!C.target.options.genSpecialDivChecks) (.ofWide wide)
          (s.reg .rax) (s.reg divisor))
        (Divided true rem wide (wide && C.target.options.genSpecialDivChecks) divisor) pc
          pre new := by
  unfold divideSigned
  refine points_newLabel fun done => finds_get.points fun d hd => ?_
  extract_lets division
  have hdivision : ∀ u, Points S C (division u) _ := fun _ => points_signedPair rem done hrdx
  rw [hd.target]
  split
  · rename_i hchecks
    rw [hchecks, Bool.and_true] at hscratch ⊢
    have hguard : Runs S C (guardDivision wide rem divisor done) _ _ _ :=
      runs_guardDivision hrdx hscratch
    refine (Lays.points hguard hdivision).mono ?_
    rintro pc pre _ post final - ⟨_, new₁, new₂, rfl, hlead, htrap, hdone⟩
    refine hlead.traps htrap (fun _ _ => rfl) ?_ ?_
    · -- The division is reached.
      rintro s c - - ⟨hprepared, hfits⟩
      have hsame := hprepared.reg_eq hrdx hscratch
      have hdividend := hprepared.reg_eq (g := .rax) (by decide) fun _ => by decide
      refine ⟨trivial, ?_, fun c' hc' =>
        hc'.after (hprepared.mono ?_ (fun _ => id) fun _ => id) hdividend hsame nofun⟩
      · rw [hdividend, hsame]
        have hchecked :
            divideFault? false (.ofWide wide) (s.reg .rax) (s.reg divisor) = divideError? _ _ :=
          divideFault?_of_fits nofun
        exact (divideFault?_of_fits fun _ => hfits).trans hchecked.symm
      · rintro g (hg | hg)
        · exact .inl (.inr hg)
        · exact .inr hg
    · -- It is skipped, with a divisor that is not zero.
      rintro l s c - - ⟨rfl, hprepared, hover, hzero⟩
      refine ⟨divideFault?_eq_none.mpr ⟨Overflows.ne_zero hover, nofun⟩,
        divided_of_skipped hprepared hover hzero, ?_⟩
      rw [hdone, List.append_assoc]
  · rename_i hchecks
    rw [Bool.not_eq_true] at hchecks
    rw [hchecks, Bool.and_false]
    exact (hdivision ()).mono fun pc pre new post final _ h => h.1

/-- A division, with the dividend in `rax`. -/
theorem points_division (isSigned wide rem : Bool) (hrdx : divisor ≠ .rdx)
    (hscratch : (isSigned && (wide && C.target.options.genSpecialDivChecks)) = true →
      divisor ≠ scratch) :
    Points S C (if isSigned then divideSigned wide rem divisor
      else divideUnsigned wide divisor) fun pc pre new _ =>
      S.Traps (fun _ => True)
        (fun s => divideFault? (isSigned && !C.target.options.genSpecialDivChecks) (.ofWide wide)
          (s.reg .rax) (s.reg divisor))
        (Divided isSigned rem wide (isSigned && (wide && C.target.options.genSpecialDivChecks))
          divisor) pc pre new := by
  cases isSigned with
  | true => exact points_divideSigned hrdx hscratch
  | false => exact points_divideUnsigned hrdx

/-! ### The whole operation -/

/-- The low half of a word by itself is not the least number of full width. -/
theorem overflows_of_low {half : Bool} {a d : Word}
    (h : Overflows (.ofWide wide) (low a (.ofWide half)) d) :
    Overflows (.ofWide wide) a d := by
  obtain ⟨hleast, hdivisor⟩ := h
  refine ⟨?_, hdivisor⟩
  cases half with
  | true => rwa [show low a (.ofWide true) = a from low_qword a] at hleast
  | false =>
    cases wide with
    | false => rwa [show Width.ofWide false = .dword from rfl, setWidth_low] at hleast
    | true =>
      have hlt : (low a .dword).toNat < 2 ^ 32 := by
        rw [toNat_low]
        exact Nat.mod_lt _ (by decide)
      have hnat := congrArg BitVec.toNat hleast
      change ((low a .dword).setWidth 64).toNat = 2 ^ 63 at hnat
      rw [BitVec.setWidth_eq] at hnat
      omega

/-- If the dividend has been received, then a quotient that does not fit has not fitted before. -/
theorem Filled.overflows {frame : Frame} {src : Operand} {g : Gpr} {s c : Machine} {d : Word}
    (h : Filled S frame src g s c) (hover : Overflows (.ofWide wide) (c.reg g) d) :
    ∃ a, S.word? frame s src = some a ∧ Overflows (.ofWide wide) a d := by
  obtain ⟨flags, v, rfl, hv | ⟨r, hr, rfl⟩⟩ := h
  all_goals rw [reg_setReg_self] at hover
  · exact ⟨v, hv, hover⟩
  · refine ⟨s.reg r, Site.word?_gpr hr, overflows_of_low hover⟩

theorem Filled.reg_eq {frame : Frame} {src : Operand} {g g' : Gpr} {s c : Machine}
    (h : Filled S frame src g s c) (hne : g' ≠ g) : c.reg g' = s.reg g' := by
  obtain ⟨flags, v, rfl, -⟩ := h
  exact reg_setReg_of_ne hne.symm

theorem Filled.keeps {frame : Frame} {src : Operand} {g : Gpr} {s c : Machine} {G : Gpr → Prop}
    {X : Xmm → Prop} {A : Word → Prop} (h : Filled S frame src g s c)
    (hg : G g) : s.Keeps G X A c := by
  obtain ⟨flags, v, rfl, -⟩ := h
  exact (keeps_flags flags).trans (keeps_setReg hg v)

/-- Of an operand of the same kind, the register has received all that is computed with. -/
theorem Filled.exists_value {frame : Frame} {src : Operand} {g : Gpr} {s c : Machine}
    (h : Filled S frame src g s c) (hfloat : src.kind.isFloating = false) :
    ∃ a, S.value? frame s src = some a ∧
      (c.reg g).setWidth (Width.ofWide src.kind.isWord).bits = a.setWidth _ := by
  obtain ⟨flags, v, rfl, hv | ⟨r, hr, rfl⟩⟩ := h
  · obtain ⟨a, ha, rfl⟩ := Option.map_eq_some_iff.mp hv
    refine ⟨a, ha, ?_⟩
    rw [reg_setReg_self]
    split
    · rfl
    · rw [Kind.width_eq_ofWide hfloat, setWidth_low]
  · refine ⟨s.reg r, Site.value?_gpr hr, ?_⟩
    rw [reg_setReg_self, setWidth_low]

section Divide

variable {isSigned : Bool} {left right result : Operand} {info : Option DebugInfo}

/-- Whether there is a wide constant in the check in front of the division. -/
def isChecked (target : Target) (isSigned : Bool) (result : Operand) : Bool :=
  isSigned && (result.kind.isWord && target.options.genSpecialDivChecks)

/-- A quotient that does not fit makes the division fault. -/
def isUnchecked (target : Target) (isSigned : Bool) : Bool :=
  isSigned && !target.options.genSpecialDivChecks

/-- The steps of a division. -/
theorem divide_eq (isSigned rem : Bool) (left right result : Operand) (info : Option DebugInfo) :
    divide isSigned rem left right result info = gpr right >>= fun divisor =>
      if divisor = .rax ∨ divisor = .rdx then unhandled s!"divisor in {divisor.title}"
      else mov left (.reg Gpr.rax.register result.kind) false >>= fun _ =>
        (if isSigned then divideSigned result.kind.isWord rem divisor
          else divideUnsigned result.kind.isWord divisor) >>= fun pc =>
        (match info with
          | some i => recordTrap pc i
          | none => pure ()) >>= fun _ =>
        mov (.reg (outRegister rem).register result.kind) result false := by
  cases isSigned <;> cases info <;> simp only [divide, outRegister, pure_bind] <;> rfl

/-- Where a division is recorded if there is debug information, one instruction may fault, and this
is the one. Behind it the result is moved on. -/
theorem lays_divide {B : Machine → Prop} {H : Hazard} {Q : Assertion} {K : Site.Claim}
    (hscratch : isChecked C.target isSigned result = true → gpr? right ≠ some scratch)
    (hmov : Lays S C (mov (.reg (outRegister rem).register result.kind) result false) fun _ => K)
    (hB : ∀ s, B s → S.Readable s ∧ S.Accessible C.frame s left)
    (hQ : ∀ divisor, gpr? right = some divisor → divisor ≠ .rax → divisor ≠ .rdx → ∀ s c, B s →
      Filled S C.frame left .rax s c →
      divideFault? (isUnchecked C.target isSigned) (.ofWide result.kind.isWord) (c.reg .rax)
        (c.reg divisor) = H s ∧ ∀ c', Divided isSigned rem result.kind.isWord
          (isChecked C.target isSigned result) divisor c c' → Q s c') :
    Lays S C (divide isSigned rem left right result info) fun _ pre new final =>
      ∃ pc new₁ new₂, new = new₁ ++ new₂ ∧
      S.Traps B H Q pc pre new₁ ∧ (∀ i, info = some i → final.tables.HasTrap pc i) ∧
      K (pre ++ new₁) new₂ final := by
  rw [divide_eq]
  refine (finds_gpr right).lays_bind fun divisor hdivisor => ?_
  split
  · exact lays_of_fails (fails_unhandled _)
  rename_i hpair
  rw [not_or] at hpair
  have hfill : Computes S C (mov left (.reg Gpr.rax.register result.kind) false) _ _ :=
    computes_fill
  have hdivision : Points S C _ _ := points_division isSigned result.kind.isWord rem hpair.2
    fun h heq => hscratch h (heq ▸ hdivisor)
  have hlays := ((Lays.points hfill fun _ => hdivision).recorded info).bind fun _ => hmov
  simp only [bind_assoc] at hlays
  refine hlays.mono ?_
  rintro u pre _ post final - ⟨_, _, new₃, rfl, ⟨pc, ⟨_, new₁, new₂, rfl, hlead, htrap⟩, hhas⟩, hK⟩
  refine ⟨pc, _, new₃, rfl, ?_, hhas, hK⟩
  refine hlead.traps htrap (fun s hs => ⟨rfl, hB s hs⟩) (fun s c hs _ hc => ?_)
    fun _ _ _ _ _ => False.elim
  exact ⟨trivial, hQ divisor hdivisor hpair.1 hpair.2 s c hs hc⟩

/-- What a division needs, whatever its divisor: there is a quotient that fits, or it is checked
for. -/
structure CanDivide (S : Site) (target : Target) (frame : Frame) (isSigned : Bool)
    (left right result : Operand) (s : Machine) :
    Prop where
  readable : S.Readable s
  dividend : S.Accessible frame s left
  quotient : S.Accessible frame s result
  fits : isSigned = true → target.options.genSpecialDivChecks = false →
    ∀ a b, S.word? frame s left = some a →
    S.word? frame s right = some b → ¬ Overflows (.ofWide result.kind.isWord) a b

theorem traps_divide {info : DebugInfo}
    (hresult : ∀ g, result.AddressedBy C.frame g →
      ¬ Overwrites (isChecked C.target isSigned result) g)
    (hscratch : isChecked C.target isSigned result = true → gpr? right ≠ some scratch) :
    Traps S C (divide isSigned rem left right result (some info))
      (CanDivide S C.target C.frame isSigned left right result)
      (fun s => (S.word? C.frame s right).bind
        (divideError? (.ofWide result.kind.isWord))) info := by
  refine (lays_divide (B := CanDivide S C.target C.frame isSigned left right result)
    (H := fun s => (S.word? C.frame s right).bind (divideError? (.ofWide result.kind.isWord)))
    (Q := fun s c => s.Keeps (Overwrites (isChecked C.target isSigned result))
      (fun _ => False) (fun _ => False) c)
    hscratch passes_movRegister (fun s hs => ⟨hs.readable, hs.dividend⟩) ?_).mono ?_
  · intro divisor hdivisor hrax _ s c hs hc
    have hsame : c.reg divisor = s.reg divisor := hc.reg_eq hrax
    have hword : S.word? C.frame s right = some (s.reg divisor) := Site.word?_gpr hdivisor
    refine ⟨?_, fun c' hc' => (hc.keeps (.inl (.inl rfl))).trans hc'.keeps⟩
    rw [hword, hsame]
    refine divideFault?_of_fits fun hunchecked hover => ?_
    obtain ⟨hsigned, hchecks⟩ : isSigned = true ∧ C.target.options.genSpecialDivChecks = false := by
      simpa [isUnchecked] using hunchecked
    obtain ⟨a, ha, hover⟩ := hc.overflows hover
    exact hs.fits hsigned hchecks a _ ha hword hover
  · rintro _ pre _ post final - ⟨pc, new₁, new₂, rfl, htrap, hhas, hpasses⟩
    refine ⟨pc,
      (htrap.append hpasses fun s c hloads hs hc => ⟨Site.loads_of_keeps hloads hc, ?_⟩).mono
      fun s _ hs => ⟨hs, rfl, fun _ _ => trivial⟩, hhas info rfl⟩
    exact hs.quotient.keeps_place hc hresult

end Divide

end MachineCode.Lower
