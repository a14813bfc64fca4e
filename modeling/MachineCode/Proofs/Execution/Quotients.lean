import MachineCode.Proofs.Execution.Dividing

/-! Quotients and remainders. A division leaves in its result what the operands have had for one,
wherever it has been received from; there is no result where the processor faults. -/
namespace MachineCode

open X64 Machine Lower

/-- There is no quotient for the processor: the divisor is zero, or it is -1, the dividend is the
least number and this is not checked for. -/
def Undivided (target : Target) (isSigned : Bool) {n : Nat} (x y : BitVec n) : Prop :=
  y = 0 ∨ isSigned = true ∧ target.options.genSpecialDivChecks = false ∧
    x = BitVec.intMin n ∧ y = -1

/-- The operation divides integers. It is signed or not, and it leaves the remainder or the
quotient. -/
inductive Operation.Divides (left right result : Operand)
    (info : Option DebugInfo) : Operation → Bool → Bool → Prop
  | div : Divides left right result info (.arith .div left right result info) true false
  | rem : Divides left right result info (.arith .rem left right result info) true true
  | udiv : Divides left right result info (.arith .udiv left right result info) false false
  | urem : Divides left right result info (.arith .urem left right result info) false true

variable {op : Operation} {isSigned rem : Bool} {left right result : Operand}
  {info : Option DebugInfo} {divisor : Gpr}

theorem Operation.Divides.lower_eq (h : op.Divides left right result info isSigned rem)
    (hfloat : result.kind.isFloating = false) :
    lower op = Lower.divide isSigned rem left right result info := by
  cases h <;> rw [lower, Lower.arith, hfloat, if_neg Bool.false_ne_true] <;> rfl

namespace Lower

variable {S : Site} {C : Context}

theorem low_eq_zero_iff {w : Width} {d : Word} : low d w = 0 ↔ d.setWidth w.bits = 0 := by
  have hzero : low 0 w = 0 := by cases w <;> rfl
  rw [← hzero, low_eq_iff, show (0 : Word).setWidth w.bits = 0 from BitVec.setWidth_zero ..]

theorem divideFault?_of_undivided {target : Target} {w : Width} {a d : Word}
    (h : Undivided target isSigned (a.setWidth w.bits) (d.setWidth w.bits)) :
    divideFault? (isUnchecked target isSigned) w a d = some .divideError := by
  refine divideFault?_eq_some.mpr ⟨?_, rfl⟩
  obtain hzero | ⟨rfl, hchecks, hover⟩ := h
  · exact .inl (low_eq_zero_iff.mpr hzero)
  · exact .inr ⟨by rw [isUnchecked, hchecks]; rfl, hover⟩

theorem divideFault?_of_not_undivided {target : Target} {w : Width} {a d : Word}
    (h : ¬ Undivided target isSigned (a.setWidth w.bits) (d.setWidth w.bits)) :
    divideFault? (isUnchecked target isSigned) w a d = none := by
  refine divideFault?_eq_none.mpr ⟨fun hzero => h (.inl (low_eq_zero_iff.mp hzero)),
    fun hunchecked hover => ?_⟩
  obtain ⟨hsigned, hchecks⟩ : isSigned = true ∧ target.options.genSpecialDivChecks = false := by
    simpa [isUnchecked] using hunchecked
  exact h (.inr ⟨hsigned, hchecks, hover⟩)

/-- The quotient or the remainder has been delivered. Nothing else has changed but the registers
that the code overwrites. -/
def DeliversQuotient (S : Site) (frame : Frame) (isSigned rem : Bool) (left result : Operand)
    (divisor : Gpr) : Assertion :=
  fun s c => ∃ a v, S.value? frame s left = some a ∧
    v.setWidth _ = divided isSigned rem (a.setWidth result.kind.width.bits)
      ((s.reg divisor).setWidth _) ∧
    S.Holds frame s result v c ∧
    s.Keeps (fun g => Overwrites true g ∨ gpr? result = some g) (fun x => xmm? result = some x)
      (fun b => ∃ l, place? frame result = some l ∧ (b - S.place s l).toNat < result.kind.size) c

/-- The result is in its register, and has to be moved on. -/
def HasQuotient (S : Site) (frame : Frame) (isSigned rem : Bool) (left result : Operand)
    (divisor : Gpr) : Assertion :=
  fun s c => ∃ a, S.value? frame s left = some a ∧
    (c.reg (outRegister rem)).setWidth _ =
      divided isSigned rem (a.setWidth result.kind.width.bits) ((s.reg divisor).setWidth _) ∧
    s.Keeps (Overwrites true) (fun _ => False) (fun _ => False) c

theorem HasQuotient.delivers {frame : Frame} {s m c : Machine}
    (hresult : ∀ g, result.AddressedBy frame g → ¬ Overwrites true g)
    (h : HasQuotient S frame isSigned rem left result divisor s m)
    (hmoved : S.Moved frame (.reg (outRegister rem).register result.kind) result false m c) :
    DeliversQuotient S frame isSigned rem left result divisor s c := by
  obtain ⟨a, ha, hvalue, hkeeps⟩ := h
  obtain ⟨v, hv, hdelivers, -⟩ := hmoved
  cases (Site.value?_gpr (gpr?_register (outRegister rem) result.kind)).symm.trans hv
  have hplace : ∀ l, place? frame result = some l → S.place m l = S.place s l :=
    fun l hl => hkeeps.place S fun g hg => hresult g ⟨l, hl, hg⟩
  refine ⟨a, _, ha, hvalue, ⟨hdelivers.holds.gpr, hdelivers.holds.xmm, fun l hl => ?_⟩, ?_⟩
  · rw [← hplace l hl]
    exact hdelivers.holds.memory l hl
  · refine (hkeeps.mono (fun g => .inl) (fun _ => False.elim) fun _ => False.elim).trans
      (hdelivers.keeps.mono ?_ (fun _ => id) ?_)
    · rintro g (hg | ⟨-, rfl⟩)
      · exact .inr hg
      · exact .inl (.inr ⟨rfl, rfl⟩)
    · rintro b ⟨l, hl, hb⟩
      exact ⟨l, hl, hplace l hl ▸ hb⟩

theorem traps_quotient (hfloat : result.kind.isFloating = false) (hleft : left.kind = result.kind)
    (hdivisor : gpr? right = some divisor) (hscratch : divisor ≠ scratch) (hexists : result.Exists)
    (hresult : ∀ g, result.AddressedBy C.frame g → ¬ Overwrites true g) :
    Lays S C (Lower.divide isSigned rem left right result info) fun _ pre new _ => ∃ pc,
      S.Traps (CanMove S C.frame left result)
        (fun s => (S.value? C.frame s left).bind
          (divideFault? (isUnchecked C.target isSigned) result.kind.width · (s.reg divisor)))
        (DeliversQuotient S C.frame isSigned rem left result divisor) pc pre new := by
  have hmov : Computes S C (mov (.reg (outRegister rem).register result.kind) result false) _ _ :=
    computes_mov rfl hexists
      (fun _ _ h => by rw [Operand.kind] at h; rw [h] at hfloat; cases hfloat) fun l hl => by
      rw [← Bool.not_eq_true]
      exact fun huse => hresult scratch ⟨l, hl, huse⟩ (.inr ⟨rfl, rfl⟩)
  refine (lays_divide (B := CanMove S C.frame left result)
    (H := fun s => (S.value? C.frame s left).bind
      (divideFault? (isUnchecked C.target isSigned) result.kind.width · (s.reg divisor)))
    (Q := HasQuotient S C.frame isSigned rem left result divisor)
    (fun _ h => hscratch (Option.some.inj (hdivisor.symm.trans h))) hmov
      (fun s hs => ⟨hs.readable, hs.source⟩) ?_).mono ?_
  · intro g hg hrax _ s c hs hc
    cases hdivisor.symm.trans hg
    obtain ⟨a, ha, hvalue⟩ := hc.exists_value (by rw [hleft, hfloat])
    have hsame : c.reg divisor = s.reg divisor := hc.reg_eq hrax
    rw [hleft, ← Kind.width_eq_ofWide hfloat] at hvalue
    rw [← Kind.width_eq_ofWide hfloat, ha, hsame]
    refine ⟨divideFault?_congr hvalue, fun c' hc' => ⟨a, ha, ?_, ?_⟩⟩
    · have hdivided := hc'.result
      rw [hsame, ← Kind.width_eq_ofWide hfloat, hvalue] at hdivided
      exact hdivided
    · refine (hc.keeps (.inl (.inl rfl))).trans (hc'.keeps.mono ?_ (fun _ => id) fun _ => id)
      rintro g (hg | ⟨-, hg⟩)
      · exact .inl hg
      · exact .inr ⟨rfl, hg⟩
  · rintro _ pre _ post final - ⟨pc, new₁, new₂, rfl, htrap, -, hleads⟩
    refine ⟨pc, (htrap.append hleads.passes fun s c hloads hs hc => ?_).mono
      fun s _ hs => ⟨hs, rfl, ?_⟩⟩
    · obtain ⟨-, -, -, hkeeps⟩ := hc
      refine ⟨Site.loads_of_keeps hloads hkeeps, hs.readable.keeps hkeeps,
        Site.accessible_of_none rfl, hs.target.keeps_place hkeeps hresult, fun l hl => ?_⟩
      rw [hkeeps.place S fun g hg => hresult g ⟨l, hl, hg⟩]
      exact hs.clear l hl
    · rintro c ⟨m, hm, hmoved⟩
      exact hm.delivers hresult hmoved

/-- The divisor must not be in the pair of registers that holds the dividend. -/
theorem divide_eq_unhandled {d : Draft} (hdivisor : gpr? right = some divisor)
    (hpair : divisor = .rax ∨ divisor = .rdx) :
    Lower.divide isSigned rem left right result info d =
      .error (.unhandled d.current s!"divisor in {divisor.title}") d := by
  have hgpr : gpr right d = .ok divisor d := by
    cases right with
    | reg r kind =>
      have hr : Gpr.ofRegister? r = some divisor := hdivisor
      rw [gpr, hr]
      rfl
    | stack | const | addr => cases hdivisor
  rw [divide_eq, Step.bind_of_ok hgpr, if_pos hpair]
  rfl

end Lower

/-! ### Divisions in installed code -/

/-- One instruction faults if there is no quotient, and else the code runs to its end. -/
theorem Installation.HasCode.exists_division {I : Installation} {start stop : Nat}
    (hcode : I.HasCode op start stop) (hop : op.Divides left right result info isSigned rem)
    (hfloat : result.kind.isFloating = false) (hleft : left.kind = result.kind)
    (hdivisor : gpr? right = some divisor) (hscratch : divisor ≠ scratch) (hexists : result.Exists)
    (hresult : ∀ g, result.AddressedBy I.source.frame g → ¬ Overwrites true g) :
    ∃ pc, start ≤ pc ∧ pc < stop ∧ ∀ machine : Machine, machine.Loaded I.base I.image →
      machine.rip = I.base + BitVec.ofNat 64 start →
      CanMove I.site I.source.frame left result machine →
      ∃ a, I.site.value? I.source.frame machine left = some a ∧
        (Undivided I.target isSigned (a.setWidth result.kind.width.bits)
          ((machine.reg divisor).setWidth _) →
          machine.Stops (I.site.Span start stop) (.divideError (I.base + BitVec.ofNat 64 pc))) ∧
        (¬ Undivided I.target isSigned (a.setWidth result.kind.width.bits)
          ((machine.reg divisor).setWidth _) →
          ∃ machine' v, machine.RunsTo (I.base + BitVec.ofNat 64 stop) machine' ∧
            v.setWidth _ = divided isSigned rem (a.setWidth result.kind.width.bits)
              ((machine.reg divisor).setWidth _) ∧
            I.site.Holds I.source.frame machine result v machine' ∧ ∀ b,
              (∀ l, place? I.source.frame result = some l →
                result.kind.size ≤ (b - I.site.place machine l).toNat) →
                machine'.memory.get b = machine.memory.get b) := by
  let H : Hazard := fun s => (I.site.value? I.source.frame s left).bind
    (divideFault? (isUnchecked I.target isSigned) result.kind.width · (s.reg divisor))
  have hlays : ∀ C, C.frame = I.source.frame → C.target = I.target →
      Lays I.site C (lower op) fun _ pre new _ =>
      ∃ pc, I.site.Traps (CanMove I.site I.source.frame left result) H
        (DeliversQuotient I.site I.source.frame isSigned rem left result divisor) pc pre new := by
    intro C hframe htarget
    have hquotient : Lays I.site C (Lower.divide isSigned rem left right result info) _ :=
      traps_quotient hfloat hleft hdivisor hscratch hexists (hframe ▸ hresult)
    rw [hop.lower_eq hfloat]
    rwa [hframe, htarget] at hquotient
  obtain ⟨pc, hle, hlt, hrun⟩ := hcode.exists_trap_or_run hlays
  refine ⟨pc, hle, hlt, fun machine hloaded hrip hcan => ?_⟩
  obtain ⟨hstops, hpasses⟩ :=
    hrun machine hloaded hrip ⟨hcan.readable, hcan.source, hcan.target, hcan.clear⟩
  have hhazard : H machine.core = (I.site.value? I.source.frame machine left).bind
      (divideFault? (isUnchecked I.target isSigned) result.kind.width · (machine.reg divisor)) :=
    congrArg (Option.bind · _) (Site.value?_core machine left)
  cases hvalue : I.site.value? I.source.frame machine left with
  | none =>
    -- Without a value there would be no code.
    obtain ⟨_, -, a, v, ha, -⟩ := hpasses (by rw [hhazard, hvalue]; rfl)
    cases ((Site.value?_core machine left).symm.trans ha).symm.trans hvalue
  | some a =>
    rw [hvalue, Option.bind_some] at hhazard
    refine ⟨a, rfl, fun hnot => hstops _ (hhazard.trans (divideFault?_of_undivided hnot)),
      fun hdivided => ?_⟩
    obtain ⟨machine', hrun, a', v, ha, hv, hholds, hkeeps⟩ :=
      hpasses (hhazard.trans (divideFault?_of_not_undivided hdivided))
    cases ((Site.value?_core machine left).symm.trans ha).symm.trans hvalue
    refine ⟨machine', v, hrun, hv, ⟨hholds.gpr, hholds.xmm, hholds.memory⟩,
      fun b hb => hkeeps.memory b ?_⟩
    rintro ⟨l, hl, hlt⟩
    exact absurd hlt (Nat.not_lt.mpr (hb l hl))

/-- The lowering refuses a divisor in the pair of registers of the dividend. Else the code of a
division faults at one of its instructions if there is no quotient for the processor; if there is
one, the code runs to its end, and the result register holds the quotient or the remainder of what
the operands have been before. The result register may be any, the divisor's and those of the
dividend's address among them. -/
theorem exists_run_divides (hop : op.Divides left right result info isSigned rem)
    (hfloat : result.kind.isFloating = false) (hleft : left.kind = result.kind)
    (hdivisor : gpr? right = some divisor) (hscratch : divisor ≠ scratch) :
    (divisor = .rax ∨ divisor = .rdx → ∀ d, ∃ d',
      operation op d = .error (.unhandled op.name s!"divisor in {divisor.title}") d') ∧
    ∀ (I : Installation) (res : Gpr) (start stop : Nat), gpr? result = some res →
    I.HasCode op start stop →
      ∃ pc, start ≤ pc ∧ pc < stop ∧ ∀ machine : Machine, machine.Loaded I.base I.image →
        machine.rip = I.base + BitVec.ofNat 64 start → I.site.Readable machine →
        I.site.Accessible I.source.frame machine left →
        ∃ a, I.site.value? I.source.frame machine left = some a ∧
          let x := a.setWidth result.kind.width.bits
          let y := (machine.reg divisor).setWidth result.kind.width.bits
          (Undivided I.target isSigned x y →
            machine.Stops (I.site.Span start stop) (.divideError (I.base + BitVec.ofNat 64 pc))) ∧
          (¬ Undivided I.target isSigned x y → ∃ machine',
            machine.RunsTo (I.base + BitVec.ofNat 64 stop) machine' ∧
            (machine'.reg res).setWidth result.kind.width.bits = divided isSigned rem x y) := by
  refine ⟨fun hpair d => ⟨{ d with current := op.name }, ?_⟩, fun I res start stop hres hcode => ?_⟩
  · have hlower : Lower.divide isSigned rem left right result info { d with current := op.name } =
        .error (.unhandled op.name s!"divisor in {divisor.title}") { d with current := op.name } :=
      Lower.divide_eq_unhandled hdivisor hpair
    rw [← hop.lower_eq hfloat] at hlower
    unfold operation
    exact (Step.bind_of_ok rfl).trans ((Step.bind_of_ok rfl).trans (Step.bind_of_error hlower))
  · have hplace : ∀ frame l, place? frame result ≠ some l := fun frame l hl => by
      rw [Site.place?_of_gpr? hres] at hl
      cases hl
    obtain ⟨pc, hle, hlt, hrun⟩ :=
      hcode.exists_division hop hfloat hleft hdivisor hscratch (fun _ => .inl ⟨res, hres⟩)
      fun g ⟨l, hl, _⟩ => absurd hl (hplace _ l)
    refine ⟨pc, hle, hlt, fun machine hloaded hrip hreadable haccessible => ?_⟩
    obtain ⟨a, ha, hstops, hpasses⟩ := hrun machine hloaded hrip
      ⟨hreadable, haccessible, fun l hl => absurd hl (hplace _ l),
        fun l hl => absurd hl (hplace _ l)⟩
    refine ⟨a, ha, hstops, fun hdivided => ?_⟩
    obtain ⟨machine', v, hrun, hv, hholds, -⟩ := hpasses hdivided
    exact ⟨machine', hrun, (low_eq_iff.mp (hholds.gpr res hres)).trans hv⟩

/-- The least number divided by -1, with the check in front of it, and a division by zero. The
quotient goes to the register of the divisor. -/
theorem exists_run_divides_least :
    let left : Operand := .reg Gpr.rax.register .long
    let right : Operand := .reg Gpr.rcx.register .long
    let op : Operation := .arith .div left right right none
    let least : Machine := (Machine.initial.setReg .rax (BitVec.intMin 64)).setReg .rcx (-1)
    ∃ (I : Installation) (start stop pc : Nat), I.target.options.genSpecialDivChecks = true ∧
      I.HasCode op start stop ∧
      start ≤ pc ∧ pc < stop ∧
      (∃ machine', (I.enter least start).RunsTo (I.base + BitVec.ofNat 64 stop) machine' ∧
        machine'.reg .rcx = BitVec.intMin 64) ∧
      (I.enter (Machine.initial.setReg .rcx 0) start).Stops (I.site.Span start stop)
        (.divideError (I.base + BitVec.ofNat 64 pc)) := by
  intro left right op least
  let target : Target := ⟨{ Options.standard with useStackBanging := false }, ⟨true, true⟩, 4096⟩
  obtain ⟨I, htarget, hsource, -, hlow, hhigh⟩ :=
    Installation.exists_installed target ⟨"test", none, .empty, [], [op, .ret none]⟩
      0x10000000 (by decide +kernel)
  obtain ⟨start, stop, hcode⟩ := I.exists_hasCode (by simp [hsource] : op ∈ I.source.ops)
  have hop : op.Divides left right right none true false := .div
  have hdivisor : gpr? right = some .rcx := rfl
  obtain ⟨pc, hle, hlt, hrun⟩ :=
    (exists_run_divides hop rfl rfl hdivisor (by decide)).2 I .rcx start stop rfl hcode
  have hready : ∀ machine : Machine, machine.protectedRanges = [] →
      I.site.Readable (I.enter machine start) :=
    fun machine h => Site.readable_of_unprotected h hlow hhigh
  refine ⟨I, start, stop, pc, by rw [htarget]; rfl, hcode, hle, hlt, ?_, ?_⟩
  · have hrax : (I.enter least start).reg .rax = BitVec.intMin 64 := rfl
    have hrcx : (I.enter least start).reg .rcx = -1 := rfl
    obtain ⟨a, ha, -, hpasses⟩ :=
      hrun _ (Installation.loaded_enter least start) rfl (hready _ rfl) nofun
    cases (Site.value?_gpr (g := .rax) rfl).symm.trans ha
    rw [htarget, hrax, hrcx] at hpasses
    obtain ⟨machine', hrun, hvalue⟩ := hpasses fun h => by
      obtain hzero | ⟨-, hchecks, -⟩ := h
      · revert hzero
        decide
      · cases hchecks
    have hover : Overflows (.ofWide true) (BitVec.intMin 64) (-1) := by decide
    exact ⟨machine', hrun,
      (BitVec.setWidth_eq _).symm.trans (hvalue.trans (divided_of_overflows hover))⟩
  · have hrcx : (I.enter (Machine.initial.setReg .rcx 0) start).reg .rcx = 0 := rfl
    obtain ⟨a, -, hstops, -⟩ :=
      hrun _ (Installation.loaded_enter (Machine.initial.setReg .rcx 0) start) rfl
      (hready _ rfl) nofun
    rw [hrcx] at hstops
    exact hstops (.inl (by decide))

/-- A division into memory leaves the quotient or the remainder, at the width of its kind, where the
result has been before, and no other byte of memory changes. The address is not computed from the
registers that hold the dividend and the scratch register. -/
theorem exists_run_divides_memory {I : Installation} {start stop : Nat} {l : Location}
    (hop : op.Divides left right result info isSigned rem) (hcode : I.HasCode op start stop)
    (hfloat : result.kind.isFloating = false) (hleft : left.kind = result.kind)
    (hdivisor : gpr? right = some divisor) (hscratch : divisor ≠ scratch)
    (hl : place? I.source.frame result = some l)
    (hintact : ∀ g, l.mem.uses g = true → g ≠ .rax ∧ g ≠ .rdx ∧ g ≠ scratch) :
    ∃ pc, start ≤ pc ∧ pc < stop ∧ ∀ machine : Machine, machine.Loaded I.base I.image →
      machine.rip = I.base + BitVec.ofNat 64 start →
      CanMove I.site I.source.frame left result machine →
      ∃ a, I.site.value? I.source.frame machine left = some a ∧
        let x := a.setWidth result.kind.width.bits
        let y := (machine.reg divisor).setWidth result.kind.width.bits
        (Undivided I.target isSigned x y →
          machine.Stops (I.site.Span start stop) (.divideError (I.base + BitVec.ofNat 64 pc))) ∧
        (¬ Undivided I.target isSigned x y →
          ∃ machine', machine.RunsTo (I.base + BitVec.ofNat 64 stop) machine' ∧
          machine'.memory.readWord (I.site.place machine l) result.kind.size =
            (divided isSigned rem x y).toNat % 256 ^ result.kind.size ∧
          ∀ b, result.kind.size ≤ (b - I.site.place machine l).toNat →
          machine'.memory.get b = machine.memory.get b) := by
  have hregister := Site.isRegister_of_place? hl
  obtain ⟨pc, hle, hlt, hrun⟩ := hcode.exists_division hop hfloat hleft hdivisor hscratch
    (fun h => by rw [hregister] at h; cases h) fun g ⟨l', hl', huse⟩ => by
      cases hl.symm.trans hl'
      obtain ⟨hrax, hrdx, hne⟩ := hintact g huse
      rintro ((rfl | rfl) | ⟨-, rfl⟩)
      · exact hrax rfl
      · exact hrdx rfl
      · exact hne rfl
  refine ⟨pc, hle, hlt, fun machine hloaded hrip hcan => ?_⟩
  obtain ⟨a, ha, hstops, hpasses⟩ := hrun machine hloaded hrip hcan
  refine ⟨a, ha, hstops, fun hdivided => ?_⟩
  obtain ⟨machine', v, hrun, hv, hholds, hmemory⟩ := hpasses hdivided
  refine ⟨machine', hrun, ?_, fun b hb => hmemory b fun l' hl' => by
    cases hl.symm.trans hl'; exact hb⟩
  rw [hholds.memory l hl, ← hv, BitVec.toNat_setWidth, Nat.mod_mod_of_dvd]
  cases result.kind <;> decide

/-- The remainder of 17 and 5, into memory. -/
theorem exists_run_divides_memory_urem :
    let left : Operand := .reg Gpr.rax.register .int
    let right : Operand := .reg Gpr.rcx.register .int
    let result : Operand := .addr ⟨.int, .register Gpr.rbx.register, none, .times1, 8⟩
    let op : Operation := .arith .urem left right result none
    let machine : Machine := ((Machine.initial.setReg .rax 17).setReg .rcx 5).setReg .rbx 0x2000000
    ∃ (I : Installation) (start stop : Nat) (machine' : Machine), I.HasCode op start stop ∧
      (I.enter machine start).RunsTo (I.base + BitVec.ofNat 64 stop) machine' ∧
      machine'.memory.readWord 0x2000008 4 = 2 ∧
      ∀ b : Word, 4 ≤ (b - 0x2000008).toNat →
      machine'.memory.get b = (I.enter machine start).memory.get b := by
  intro left right result op machine
  let target : Target := ⟨{ Options.standard with useStackBanging := false }, ⟨true, true⟩, 4096⟩
  obtain ⟨I, -, hsource, hbase, hlow, hhigh⟩ :=
    Installation.exists_installed target ⟨"test", none, .empty, [], [op, .ret none]⟩
      0x10000000 (by decide +kernel)
  obtain ⟨start, stop, hcode⟩ := I.exists_hasCode (by simp [hsource] : op ∈ I.source.ops)
  have hl : place? I.source.frame result = some (.plain (.based .rbx 8)) := rfl
  have hplace : I.site.place (I.enter machine start) (.plain (.based .rbx 8)) = 0x2000008 := rfl
  have hop : op.Divides left right result none false true := .urem
  have hintact : ∀ g, (Location.plain (.based .rbx 8)).mem.uses g = true →
      g ≠ .rax ∧ g ≠ .rdx ∧ g ≠ scratch := by
    intro g hg
    obtain rfl : .rbx = g := by simpa [Location.plain, Mem.uses, Mem.based] using hg
    decide
  have hdivisor : gpr? right = some .rcx := rfl
  obtain ⟨pc, -, -, hrun⟩ :=
    exists_run_divides_memory hop hcode rfl rfl hdivisor (by decide) hl hintact
  have hrax : (I.enter machine start).reg .rax = 17 := rfl
  have hrcx : (I.enter machine start).reg .rcx = 5 := rfl
  obtain ⟨a, ha, -, hpasses⟩ := hrun _ (Installation.loaded_enter machine start) rfl
    ⟨Site.readable_of_unprotected rfl hlow hhigh, Site.accessible_of_none rfl,
      fun l h => by cases hl.symm.trans h; rfl, fun l h => by
      cases hl.symm.trans h
      rw [hplace]
      refine Site.clear_of_below ?_ hhigh
      change _ ≤ I.base.toNat
      rw [hbase]
      decide⟩
  cases (Site.value?_gpr (g := .rax) rfl).symm.trans ha
  rw [hplace, hrax, hrcx] at hpasses
  obtain ⟨machine', hrun, hread, hsame⟩ := hpasses (by rintro (h | ⟨h, -⟩) <;> revert h <;> decide)
  exact ⟨I, start, stop, machine', hcode, hrun, hread.trans (by decide), hsame⟩

end MachineCode
