import MachineCode.Proofs.Execution.Converting
import MachineCode.Proofs.Execution.Dividing
import MachineCode.Proofs.Execution.Truncating

/-! Full products and divisions of double-width numbers, in the pair of `rdx` and `rax`. They are
exact at any width, with and without a sign: a division faults only where there is no quotient, or
where it does not fit. -/
namespace MachineCode

open X64

/-! ### Numbers -/

/-- The number that the bits stand for. -/
def number (signed : Bool) {b : Nat} (x : BitVec b) : Int := if signed then x.toInt else x.toNat

/-- The number has a place in `b` bits. -/
def IsNumber (signed : Bool) (b : Nat) (z : Int) : Prop :=
  if signed then -2 ^ (b - 1) ≤ z ∧ z < 2 ^ (b - 1) else 0 ≤ z ∧ z < 2 ^ b

instance (signed : Bool) (b : Nat) (z : Int) : Decidable (IsNumber signed b z) := by
  unfold IsNumber
  infer_instance

/-- Quotient and remainder of a division that rounds toward zero. -/
structure Divides (n d q r : Int) : Prop where
  sum : n = q * d + r
  lt : r.natAbs < d.natAbs
  sign : r = 0 ∨ r.sign = n.sign

section Numbers

variable {signed : Bool} {b : Nat} {n d z : Int}

@[simp] theorem number_true (x : BitVec b) : number true x = x.toInt := rfl

@[simp] theorem number_false (x : BitVec b) : number false x = x.toNat := rfl

@[simp] theorem isNumber_true : IsNumber true b z ↔ -2 ^ (b - 1) ≤ z ∧ z < 2 ^ (b - 1) := Iff.rfl

@[simp] theorem isNumber_false : IsNumber false b z ↔ 0 ≤ z ∧ z < 2 ^ b := Iff.rfl

theorem isNumber_number (signed : Bool) (x : BitVec b) : IsNumber signed b (number signed x) := by
  cases signed with
  | true => exact ⟨x.le_toInt, x.toInt_lt⟩
  | false =>
    rw [number_false, isNumber_false]
    exact ⟨Int.natCast_nonneg _, by exact_mod_cast x.isLt⟩

theorem number_ofInt (hb : 0 < b) (h : IsNumber signed b z) :
    number signed (BitVec.ofInt b z) = z := by
  cases signed with
  | true => exact BitVec.toInt_ofInt_eq_self hb h.1 h.2
  | false =>
    have hpow : ((2 ^ b : Nat) : Int) = 2 ^ b := by exact_mod_cast rfl
    have hpos : (0 : Int) < 2 ^ b := Int.pow_pos (by decide)
    rw [number_false, BitVec.toNat_ofInt, hpow,
      Int.toNat_of_nonneg (Int.emod_nonneg _ (Int.ne_of_gt hpos)), Int.emod_eq_of_lt h.1 h.2]

theorem number_inj {x y : BitVec b} (h : number signed x = number signed y) : x = y := by
  cases signed with
  | true => exact BitVec.eq_of_toInt_eq h
  | false => exact BitVec.eq_of_toNat_eq (Int.ofNat_inj.mp h)

@[simp] theorem number_zero (signed : Bool) : number signed (0 : BitVec b) = 0 := by
  cases signed <;> simp

theorem number_eq_zero {x : BitVec b} : number signed x = 0 ↔ x = 0 :=
  ⟨fun h => number_inj (h.trans (number_zero signed).symm), fun h => by rw [h, number_zero]⟩

theorem divides_tdiv (n : Int) (hd : d ≠ 0) : Divides n d (n.tdiv d) (n.tmod d) where
  sum := (Int.tdiv_mul_add_tmod n d).symm
  lt := by
    rw [Int.natAbs_tmod]
    exact Nat.mod_lt _ (Int.natAbs_pos.mpr hd)
  sign := by
    rw [Int.sign_tmod]
    by_cases hdvd : d ∣ n
    · exact .inl (Int.tmod_eq_zero_of_dvd hdvd)
    · exact .inr (if_neg hdvd)

/-- Where the divisor fits, the remainder does. -/
theorem isNumber_tmod (hn : signed = false → 0 ≤ n) (hd : IsNumber signed b d) (hne : d ≠ 0) :
    IsNumber signed b (n.tmod d) := by
  have hlt := (divides_tdiv n hne).lt
  cases signed with
  | true =>
    obtain ⟨hle, hlt'⟩ : -2 ^ (b - 1) ≤ d ∧ d < 2 ^ (b - 1) := hd
    constructor <;> omega
  | false =>
    obtain ⟨hnonneg, hlt'⟩ : 0 ≤ d ∧ d < 2 ^ b := hd
    have := Int.tmod_nonneg d (hn rfl)
    constructor <;> omega

end Numbers

namespace Machine

/-! ### The pair -/

/-- The number in `rdx` and `rax`, at this width. -/
def pair (signed : Bool) (w : Width) (s : Machine) : Int :=
  number signed ((s.reg .rdx).setWidth w.bits) * 2 ^ w.bits + ((s.reg .rax).setWidth w.bits).toNat

section Pair

variable {signed : Bool} {w : Width} {z : Int}

theorem isNumber_pair (signed : Bool) (w : Width) (s : Machine) :
    IsNumber signed (2 * w.bits) (s.pair signed w) := by
  unfold pair
  generalize (s.reg .rdx).setWidth w.bits = hi
  generalize (s.reg .rax).setWidth w.bits = lo
  have hlo := lo.isLt
  have hhi := isNumber_number signed hi
  generalize number signed hi = h at hhi ⊢
  cases signed <;> cases w <;>
    simp only [isNumber_true, isNumber_false, Width.bits, Width.bytes] at hlo hhi ⊢ <;> omega

/-- The pair as one number of twice the width. -/
theorem number_pair (hi lo : BitVec w.bits) : number true hi * 2 ^ w.bits + lo.toNat =
    (BitVec.ofNat (2 * w.bits) (hi.toNat * 2 ^ w.bits + lo.toNat)).toInt := by
  have hhi := hi.isLt
  have hlo := lo.isLt
  rw [number_true, BitVec.toInt_eq_toNat_cond, BitVec.toInt_eq_toNat_cond, BitVec.toNat_ofNat]
  cases w <;> simp only [Width.bits, Width.bytes] at hhi hlo ⊢ <;> omega

/-- A number of twice the width in two halves. -/
theorem number_halves (h : IsNumber signed (2 * w.bits) z) :
    number signed (((BitVec.ofInt 128 z >>> w.bits).setWidth 64).setWidth w.bits) * 2 ^ w.bits +
      (((BitVec.ofInt 128 z).setWidth 64).setWidth w.bits).toNat = z := by
  cases signed <;> cases w <;>
    simp only [isNumber_true, isNumber_false, number_true, number_false, Width.bits, Width.bytes,
      BitVec.toInt_eq_toNat_cond, BitVec.toNat_setWidth,
      BitVec.toNat_ushiftRight, BitVec.toNat_ofInt, Nat.shiftRight_eq_div_pow] at h ⊢ <;> omega

end Pair

theorem pair_withPair (signed : Bool) (w : Width) (s : Machine) (hi lo : Word) :
    (s.withPair w hi lo).pair signed w =
    number signed (hi.setWidth w.bits) * 2 ^ w.bits + (lo.setWidth w.bits).toNat := by
  rw [pair, setWidth_withPair_rdx, setWidth_withPair_rax]

/-! ### Products -/

section Products

variable {signed : Bool} {w : Width} {s : Machine} {x : Rm} {next v : Word}

theorem toInt_signExtend (a : Word) (w : Width) :
    (signExtend a w).toInt = (a.setWidth w.bits).toInt := by
  rw [signExtend, BitVec.toInt_signExtend_of_le w.bits_le]

/-- A product of two numbers has a place in twice their bits. -/
theorem isNumber_product (a b : BitVec w.bits) :
    IsNumber signed (2 * w.bits) (number signed a * number signed b) := by
  cases signed with
  | true =>
    have hle := BitVec.le_toInt_mul_toInt (x := a) (y := b)
    have hlt := BitVec.toInt_mul_toInt_le (x := a) (y := b)
    rw [number_true, number_true, isNumber_true]
    generalize a.toInt * b.toInt = z at hle hlt
    cases w <;> simp only [Width.bits, Width.bytes] at hle hlt ⊢ <;> omega
  | false =>
    have hlt : a.toNat * b.toNat < 2 ^ w.bits * 2 ^ w.bits := Nat.mul_lt_mul'' a.isLt b.isLt
    rw [number_false, number_false, isNumber_false, ← Int.natCast_mul]
    generalize a.toNat * b.toNat = n at hlt
    cases w <;> simp only [Width.bits, Width.bytes] at hlt ⊢ <;> omega

/-- The product that the machine computes, in the 128 bits that are enough for all widths. -/
theorem product_eq (hv : Machine.low v w = v) (a : Word) :
    (if signed then BitVec.ofInt 128
      ((signExtend (Machine.low a w) w).toInt * (signExtend v w).toInt)
      else BitVec.ofNat 128 ((Machine.low a w).toNat * v.toNat)) =
    BitVec.ofInt 128 (number signed (a.setWidth w.bits) * number signed (v.setWidth w.bits)) := by
  cases signed with
  | true =>
    rw [if_pos rfl, toInt_signExtend, toInt_signExtend, setWidth_low, number_true, number_true]
  | false =>
    have hvalue : v.toNat = (v.setWidth w.bits).toNat := by rw [← toNat_low_eq, hv]
    rw [if_neg Bool.false_ne_true, number_false, number_false, toNat_low_eq, hvalue,
      ← Int.natCast_mul, BitVec.ofInt_natCast]

/-- The product is left in the pair. -/
theorem yields_wideningMul (h : s.ReadsRm next w v x) :
    Yields (wideningMul signed w x next) s fun _ c =>
    c.pair signed w = number signed ((s.reg .rax).setWidth w.bits) * number signed
      (v.setWidth w.bits) ∧
      ∃ hi lo, c = s.withPair w hi lo := by
  refine (yields_readRm h).after ((yields_readReg .rax w).after ?_)
  rw [product_eq h.low_eq]
  refine yields_writePair.mono fun _ c hc => ⟨?_, _, _, hc⟩
  rw [hc, pair_withPair]
  exact number_halves (isNumber_product _ _)

end Products

/-! ### Quotients -/

/-- The least number of 128 bits and -1: their quotient has no place in 128 bits. -/
def Exceeds (signed : Bool) (w : Width) (n d : Int) : Prop :=
  signed = true ∧ w = .qword ∧ n = -2 ^ 127 ∧ d = -1

instance (signed : Bool) (w : Width) (n d : Int) : Decidable (Exceeds signed w n d) :=
  inferInstanceAs (Decidable (_ ∧ _))

section Quotients

variable {signed : Bool} {w : Width} {n d : Int}

/-- Only of these two numbers the quotient is 2^127. -/
theorem tdiv_eq_iff (hn : IsNumber true (2 * w.bits) n) :
    n.tdiv d = 2 ^ 127 ↔ Exceeds true w n d := by
  constructor
  · intro hq
    have hzero : d ≠ 0 := by
      rintro rfl
      rw [Int.tdiv_zero] at hq
      exact absurd hq (by decide)
    have hquotient : n.natAbs / d.natAbs = 2 ^ 127 := by
      have := congrArg Int.natAbs hq
      rwa [Int.natAbs_tdiv] at this
    have hle : 2 ^ 127 * d.natAbs ≤ n.natAbs := hquotient ▸ Nat.div_mul_le_self ..
    cases w with
    | byte | word | dword =>
      simp only [isNumber_true, Width.bits, Width.bytes] at hn
      omega
    | qword =>
      simp only [isNumber_true, Width.bits, Width.bytes] at hn
      obtain rfl : n = -2 ^ 127 := by omega
      obtain rfl | rfl : d = 1 ∨ d = -1 := by omega
      · rw [Int.tdiv_one] at hq
        exact absurd hq (by decide)
      · exact ⟨rfl, rfl, rfl, rfl⟩
  · rintro ⟨-, -, rfl, rfl⟩
    decide

/-- What a division computes: a fault without a divisor or without a quotient that fits, and else
quotient and remainder. Where not even 128 bits are enough for the quotient, there is another
fault. -/
theorem quotient_eq (signed : Bool) (w : Width) (hi lo d pc : Word) :
    let n : Int := number signed (hi.setWidth w.bits) * 2 ^ w.bits + (lo.setWidth w.bits).toNat
    let d' : Int := number signed (d.setWidth w.bits)
    quotient signed w (low hi w) (low lo w) (low d w) pc =
      if d' = 0 then .error (.divideError pc)
      else if Exceeds signed w n d' then .error (.quotientOverflow pc)
      else if IsNumber signed w.bits (n.tdiv d') then
        .ok (BitVec.ofInt 64 (n.tdiv d'), BitVec.ofInt 64 (n.tmod d'))
      else .error (.divideError pc) := by
  intro n d'
  have hzero : low d w = 0 ↔ d' = 0 := by
    refine Iff.trans ?_ number_eq_zero.symm
    simp only [BitVec.toNat_eq, toNat_low_eq, BitVec.toNat_zero, BitVec.ofNat_eq_ofNat]
  by_cases hd : d' = 0
  · rw [if_pos hd, quotient, if_pos (hzero.mpr hd)]
  rw [if_neg hd, quotient, if_neg fun h => hd (hzero.mp h)]
  cases signed with
  | true =>
    have hpair :
        (BitVec.ofNat (2 * w.bits)
          ((low hi w).toNat * 2 ^ w.bits + (low lo w).toNat)).toInt = n := by
      rw [toNat_low_eq, toNat_low_eq, ← number_pair]
    have hdivisor : (signExtend (low d w) w).toInt = d' := by
      rw [toInt_signExtend, setWidth_low]; rfl
    have hfits : (n.tdiv d' < -2 ^ (w.bits - 1) ∨ 2 ^ (w.bits - 1) - 1 < n.tdiv d') ↔
        ¬ IsNumber true w.bits (n.tdiv d') := by
      rw [isNumber_true]
      omega
    have hn : IsNumber true (2 * w.bits) n := hpair ▸ isNumber_number true _
    simp only [if_true, cast_pow2, hdivisor]
    simp only [pow2_eq, hpair, tdiv_eq_iff hn, hfits, ite_not]
  | false =>
    have hn : n = ((low hi w).toNat * 2 ^ w.bits + (low lo w).toNat : Nat) := by
      rw [toNat_low_eq, toNat_low_eq]
      push_cast
      rfl
    have hdivisor : d' = (low d w).toNat := by
      rw [toNat_low_eq]
      rfl
    have hexceeds : ¬ Exceeds false w n d' := fun h => Bool.false_ne_true h.1
    have hfits : ∀ q : Nat, IsNumber false w.bits q ↔ ¬ 2 ^ w.bits ≤ q := by
      intro q
      rw [isNumber_false, Nat.not_le]
      exact ⟨fun h => by exact_mod_cast h.2, fun h => ⟨Int.natCast_nonneg q, by exact_mod_cast h⟩⟩
    rw [if_neg Bool.false_ne_true, if_neg hexceeds, hn, hdivisor,
      ← Int.ofNat_tdiv, ← Int.ofNat_tmod]
    simp only [pow2_eq, hfits, ite_not, BitVec.ofInt_natCast]

end Quotients

/-! ### Divisions -/

section Divisions

variable {signed : Bool} {w : Width} {s c : Machine} {x : Rm} {next v : Word}

theorem quotient_pair (h : s.ReadsRm next w v x) (pc : Word) :
    quotient signed w (low (s.reg .rdx) w) (low (s.reg .rax) w) v pc =
      if number signed (v.setWidth w.bits) = 0 then .error (.divideError pc)
      else if Exceeds signed w (s.pair signed w) (number signed (v.setWidth w.bits)) then
        .error (.quotientOverflow pc)
      else if IsNumber signed w.bits
        ((s.pair signed w).tdiv (number signed (v.setWidth w.bits))) then
        .ok (BitVec.ofInt 64 ((s.pair signed w).tdiv (number signed (v.setWidth w.bits))),
          BitVec.ofInt 64 ((s.pair signed w).tmod (number signed (v.setWidth w.bits))))
      else .error (.divideError pc) := by
  have hquotient := quotient_eq signed w (s.reg .rdx) (s.reg .rax) v pc
  rwa [h.low_eq] at hquotient

/-- What becomes of a division: a fault that leaves the core as it is, or quotient and remainder in
the pair. -/
theorem divide_cases (h : s.ReadsRm next w v x) {n d : Int} (hn : s.pair signed w = n)
    (hd : number signed (v.setWidth w.bits) = d) :
    ((d = 0 ∨ ¬ IsNumber signed w.bits (n.tdiv d)) → ¬ Exceeds signed w n d →
      Refuses (divide signed w x next) s .divideError) ∧
    (Exceeds signed w n d → Refuses (divide signed w x next) s .quotientOverflow) ∧
    (d ≠ 0 → IsNumber signed w.bits (n.tdiv d) → Yields (divide signed w x next) s fun _ c =>
      number signed ((c.reg .rax).setWidth w.bits) = n.tdiv d ∧
        number signed ((c.reg .rdx).setWidth w.bits) = n.tmod d ∧
        ∃ hi lo, c = s.withPair w hi lo) := by
  have hquotient : ∀ pc, quotient signed w _ _ v pc = _ := quotient_pair h
  rw [hn, hd] at hquotient
  refine ⟨fun hrefused hexceeds => refuses_divide h fun pc => ?_,
    fun hexceeds => refuses_divide h fun pc => ?_, fun hzero hfits => ?_⟩
  · rw [hquotient, if_neg hexceeds]
    by_cases hzero : d = 0
    · rw [if_pos hzero]
    · rw [if_neg hzero, if_neg (hrefused.resolve_left hzero)]
  · have hzero : d ≠ 0 := by rw [hexceeds.2.2.2]; decide
    rw [hquotient, if_neg hzero, if_pos hexceeds]
  · have hexceeds : ¬ Exceeds signed w n d := by
      rintro ⟨rfl, rfl, rfl, rfl⟩
      exact absurd hfits.2 (by decide)
    have hpos : 0 < w.bits := by cases w <;> decide
    have hremainder : IsNumber signed w.bits (n.tmod d) :=
      isNumber_tmod (by rintro rfl; exact hn ▸ (isNumber_pair false w s).1) (hd ▸
        isNumber_number signed _) hzero
    have hok : ∀ pc, quotient signed w (low (s.reg .rdx) w) (low (s.reg .rax) w) v pc =
        .ok (BitVec.ofInt 64 (n.tdiv d), BitVec.ofInt 64 (n.tmod d)) := by
      intro pc
      rw [hquotient, if_neg hzero, if_neg hexceeds, if_pos hfits]
    refine (yields_divide h hok).mono fun _ c hc => ⟨?_, ?_, _, _, hc⟩
    · rw [hc, setWidth_withPair_rax, setWidth_ofInt_bits, number_ofInt hpos hfits]
    · rw [hc, setWidth_withPair_rdx, setWidth_ofInt_bits, number_ofInt hpos hremainder]

end Divisions

end Machine

/-- The operand is a register or is addressed with it. -/
def X64.Rm.uses (x : Rm) (g : Gpr) : Bool :=
  match x with
  | .reg r => r == g
  | .mem m => m.uses g

namespace Machine

section Operands

variable {w : Width} {s c : Machine} {x : Rm} {next v : Word} {G : Gpr → Prop} {X : Xmm → Prop}

/-- An operand keeps its value where its registers and the memory stay. -/
theorem ReadsRm.keeps (h : s.ReadsRm next w v x) (hk : s.Keeps G X (fun _ => False) c)
    (hx : ∀ g, x.uses g = true → ¬ G g) : c.ReadsRm next w v x := by
  cases x with
  | reg g =>
    have hreg : c.reg g = s.reg g := hk.gprs g (hx g (beq_self_eq_true g))
    obtain rfl : v = low (s.reg g) w := h
    rw [← hreg]
    exact readsRm_reg g w
  | mem m =>
    obtain ⟨hfaults, rfl⟩ := h
    have haddress : c.effectiveAddress m next = s.effectiveAddress m next :=
      effectiveAddress_congr fun g hg => hk.gprs g (hx g hg)
    have hloaded : c.loaded (s.effectiveAddress m next) w.bytes =
        s.loaded (s.effectiveAddress m next) w.bytes := by
      rw [loaded, loaded, Memory.readWord_congr fun _ _ => hk.memory _ not_false]
    rw [← hloaded]
    exact readsRm_mem haddress ((hk.faultsAt _ _).trans hfaults)

end Operands

/-! ### Both -/

/-- The multiplication of `rax` with an operand, and the division of the pair by one. -/
def multiplication (signed : Bool) (w : Width) (x : Rm) : Decoded :=
  .unary (if signed then .imul else .mul) w x

def division (signed : Bool) (w : Width) (x : Rm) : Decoded :=
  .unary (if signed then .idiv else .div) w x

theorem execute_multiplication (signed : Bool) (w : Width) (x : Rm) (next : Word) :
    execute (multiplication signed w x) next = wideningMul signed w x next := by
  cases signed <;> rfl

theorem execute_division (signed : Bool) (w : Width) (x : Rm) (next : Word) :
    execute (division signed w x) next = divide signed w x next := by
  cases signed <;> rfl

/-- From the state of the machine the instruction succeeds, and `rdx` and `rax` are all that
changes. -/
def LeavesPair (i : Decoded) (w : Width) (next : Word) (machine : Machine)
    (R : Machine → Prop) : Prop :=
  ∃ machine', execute i next machine = .ok () machine' ∧ R machine' ∧
    ∃ hi lo, machine'.core = machine.core.withPair w hi lo

/-- The instruction faults, and nothing changes. -/
def FaultsWith (i : Decoded) (next : Word) (machine : Machine) (e : Word → Fault) : Prop :=
  ∃ machine', execute i next machine = .error (e machine.pc) machine' ∧ machine'.core = machine.core

section Outcomes

variable {signed : Bool} {w : Width} {i : Decoded} {x : Rm} {next v : Word} {machine : Machine}
  {e e' : Word → Fault}
  {R : Machine → Prop}

/-- An instruction has one fault. -/
theorem FaultsWith.unique (h : FaultsWith i next machine e) (h' : FaultsWith i next machine e') :
    e machine.pc = e' machine.pc := by
  obtain ⟨m₁, hrun, -⟩ := h
  obtain ⟨m₂, hrun', -⟩ := h'
  exact (EStateM.Result.error.inj (hrun.symm.trans hrun')).1

theorem FaultsWith.not_leavesPair (h : FaultsWith i next machine e) :
    ¬ LeavesPair i w next machine R := by
  rintro ⟨m₂, hrun', -⟩
  obtain ⟨m₁, hrun, -⟩ := h
  cases hrun.symm.trans hrun'

theorem leavesPair_multiplication (h : machine.ReadsRm next w v x) :
    LeavesPair (multiplication signed w x) w next machine fun machine' => machine'.pair signed w =
      number signed ((machine.reg .rax).setWidth w.bits) * number signed (v.setWidth w.bits) := by
  have hyields : Yields (wideningMul signed w x next) machine.core _ := yields_wideningMul h
  obtain ⟨_, machine', hrun, ⟨hpair, hcore⟩, -⟩ := hyields machine rfl
  exact ⟨machine', by rw [execute_multiplication, hrun], hpair, hcore⟩

/-- What becomes of a division, from a state of the machine. -/
theorem division_cases (h : machine.ReadsRm next w v x) {n d : Int} (hn : machine.pair signed w = n)
    (hd : number signed (v.setWidth w.bits) = d) :
    ((d = 0 ∨ ¬ IsNumber signed w.bits (n.tdiv d)) → ¬ Exceeds signed w n d →
      FaultsWith (division signed w x) next machine .divideError) ∧
    (Exceeds signed w n d → FaultsWith (division signed w x) next machine .quotientOverflow) ∧
    (d ≠ 0 → IsNumber signed w.bits (n.tdiv d) →
      LeavesPair (division signed w x) w next machine fun machine' =>
      number signed ((machine'.reg .rax).setWidth w.bits) = n.tdiv d ∧
        number signed ((machine'.reg .rdx).setWidth w.bits) = n.tmod d) := by
  obtain ⟨hrefuses, hexceeds, hyields⟩ := divide_cases (s := machine.core) h hn hd
  unfold FaultsWith LeavesPair
  simp only [execute_division]
  refine ⟨fun h₁ h₂ => hrefuses h₁ h₂ machine rfl,
    fun h₁ => hexceeds h₁ machine rfl, fun h₁ h₂ => ?_⟩
  obtain ⟨_, machine', hrun, ⟨hq, hr, hcore⟩, -⟩ := hyields h₁ h₂ machine rfl
  exact ⟨machine', hrun, ⟨hq, hr⟩, hcore⟩

end Outcomes

end Machine

open Machine

/-- At any width, with and without a sign, and for any operand that can be read: a multiplication
leaves the full product in the pair. A division faults exactly without a divisor or without a
quotient that fits, except for one pair of numbers, of which there is no quotient in 128 bits; and
where it does not fault, it leaves the quotient rounded toward zero, and the remainder. So what has
been multiplied and is divided by the same number is there again. -/
theorem multiplies_and_divides (signed : Bool) {w : Width} {x : Rm} {next v : Word}
    {machine : Machine} (h : machine.ReadsRm next w v x) :
    let a : Int := number signed ((machine.reg .rax).setWidth w.bits)
    let d : Int := number signed (v.setWidth w.bits)
    let n : Int := machine.pair signed w
    LeavesPair (multiplication signed w x) w next machine
      (fun machine' => machine'.pair signed w = a * d) ∧
    (FaultsWith (division signed w x) next machine .divideError ↔
      (d = 0 ∨ ¬ IsNumber signed w.bits (n.tdiv d)) ∧ ¬ Exceeds signed w n d) ∧
    (FaultsWith (division signed w x) next machine .quotientOverflow ↔ Exceeds signed w n d) ∧
    (d ≠ 0 → IsNumber signed w.bits (n.tdiv d) →
      LeavesPair (division signed w x) w next machine fun machine' =>
      Divides n d (number signed ((machine'.reg .rax).setWidth w.bits))
        (number signed ((machine'.reg .rdx).setWidth w.bits))) ∧
    ∀ x' next', machine.ReadsRm next' w v x' →
      (∀ g, x'.uses g = true → g ≠ .rax ∧ g ≠ .rdx) → d ≠ 0 →
      LeavesPair (multiplication signed w x) w next machine fun multiplied =>
        LeavesPair (division signed w x') w next' multiplied fun divided =>
          (divided.reg .rax).setWidth w.bits = (machine.reg .rax).setWidth w.bits ∧
            (divided.reg .rdx).setWidth w.bits = 0 := by
  intro a d n
  obtain ⟨hrefuses, hexceeds, hyields⟩ := division_cases h (rfl : machine.pair signed w = n) rfl
  refine ⟨leavesPair_multiplication h,
    ⟨fun hfaults => ⟨?_, fun hexceeding => ?_⟩, fun h => hrefuses h.1 h.2⟩,
    ⟨fun hfaults => ?_, hexceeds⟩, fun hd hfits => ?_, fun x' next' h' hx' hd => ?_⟩
  · by_contra hnot
    rw [not_or, not_not] at hnot
    exact hfaults.not_leavesPair (hyields hnot.1 hnot.2)
  · cases hfaults.unique (hexceeds hexceeding)
  · by_contra hexceeding
    by_cases hquotient : d = 0 ∨ ¬ IsNumber signed w.bits (n.tdiv d)
    · cases hfaults.unique (hrefuses hquotient hexceeding)
    · rw [not_or, not_not] at hquotient
      exact hfaults.not_leavesPair (hyields hquotient.1 hquotient.2)
  · obtain ⟨machine', hrun, ⟨hq, hr⟩, hcore⟩ := hyields hd hfits
    refine ⟨machine', hrun, ?_, hcore⟩
    dsimp only
    rw [hq, hr]
    exact divides_tdiv n hd
  · obtain ⟨m₁, hrun, hpair, hi, lo, hcore⟩ :
        LeavesPair (multiplication signed w x) w next machine _ :=
      leavesPair_multiplication h
    refine ⟨m₁, hrun, ?_, hi, lo, hcore⟩
    have hkeeps : machine.core.Keeps (fun g => g = .rax ∨ g = .rdx) (fun _ => False)
        (fun _ => False) m₁.core :=
      hcore ▸ keeps_withPair (.inl rfl) (.inr rfl)
    have hreads : m₁.ReadsRm next' w v x' :=
      ReadsRm.keeps (s := machine.core) (c := m₁.core) h' hkeeps fun g hg => not_or.mpr (hx' g hg)
    have hquotient : (a * d).tdiv d = a := Int.mul_tdiv_cancel a hd
    obtain ⟨-, -, hdivided⟩ := division_cases hreads (hpair : m₁.pair signed w = a * d) rfl
    rw [hquotient, Int.mul_tmod_left] at hdivided
    obtain ⟨m₂, hrun₂, ⟨hq, hr⟩, hcore₂⟩ := hdivided hd (isNumber_number signed _)
    exact ⟨m₂, hrun₂, ⟨number_inj hq, number_eq_zero.mp hr⟩, hcore₂⟩

/-- The least dividend and -1 end in the other fault. -7 is -3 times 2, and -1; and -7 times 2,
divided by 2, is -7 again. -/
theorem multiplies_and_divides_least :
    let least : Machine := (Machine.initial.setReg .rdx 0x8000000000000000).setReg .rcx (-1)
    let small : Machine := ((Machine.initial.setReg .rdx (-1)).setReg .rax (-7)).setReg .rcx 2
    FaultsWith (division true .qword (.reg .rcx)) 0 least .quotientOverflow ∧
    ¬ FaultsWith (division true .qword (.reg .rcx)) 0 least .divideError ∧
    (LeavesPair (division true .dword (.reg .rcx)) .dword 0 small fun machine' =>
      Divides (-7) 2 (number true ((machine'.reg .rax).setWidth 32))
        (number true ((machine'.reg .rdx).setWidth 32))) ∧
    LeavesPair (multiplication true .dword (.reg .rcx)) .dword 0 small fun multiplied =>
      LeavesPair (division true .dword (.reg .rcx)) .dword 0 multiplied fun divided =>
        (divided.reg .rax).setWidth 32 = (-7 : BitVec 32) ∧
          (divided.reg .rdx).setWidth 32 = (0 : BitVec 32) := by
  intro least small
  have hleast : least.ReadsRm 0 .qword (-1) (.reg .rcx) := readsRm_reg .rcx .qword
  have hsmall : small.ReadsRm 0 .dword 2 (.reg .rcx) := readsRm_reg .rcx .dword
  have hexceeds : Exceeds true .qword (least.pair true .qword)
      (number true ((-1 : Word).setWidth Width.qword.bits)) := by
    decide +kernel
  have hdivisor : number true ((2 : Word).setWidth Width.dword.bits) = 2 := by decide
  have hpair : small.pair true .dword = -7 := by decide +kernel
  have hrax : (small.reg .rax).setWidth Width.dword.bits = -7 := by decide +kernel
  have hoperand : ∀ g, (Rm.reg .rcx).uses g = true → g ≠ .rax ∧ g ≠ .rdx := by
    intro g hg
    obtain rfl : .rcx = g := eq_of_beq hg
    decide
  obtain ⟨-, hdivideError, hoverflow, -, -⟩ := multiplies_and_divides true hleast
  obtain ⟨-, -, -, hdivides, hagain⟩ := multiplies_and_divides true hsmall
  rw [hdivisor, hpair] at hdivides
  rw [hdivisor, hrax] at hagain
  exact ⟨hoverflow.mpr hexceeds, fun hfaults => (hdivideError.mp hfaults).2 hexceeds,
    hdivides (by decide) (by decide), hagain (.reg .rcx) 0 hsmall hoperand (by decide)⟩

end MachineCode
