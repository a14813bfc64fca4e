import MachineCode.Proofs.Execution.Compares
import MachineCode.Proofs.Labels.Hygiene

/-! What compares of integers decide: branches that follow them, and three-way compares. -/
namespace MachineCode

open X64 Lower Machine Chunk

/-! ### Branches -/

namespace Installation

variable {I : Installation} {op : Operation} {l : Label} {start stop : Nat}

theorem HasCode.mem (h : I.HasCode op start stop) : op ∈ I.source.ops := by
  obtain ⟨d, before, after, -, hreach, -⟩ := h
  cases hreach with
  | @front pre post _ _ hsources =>
    have hmem : Source.operation op ∈ Source.prologue :: I.source.ops.map Source.operation := by
      simp [hsources]
    simpa using hmem

/-- The offset of a label that an operation names is where the operation stands that places it. -/
theorem exists_hasCode_label {last : Draft} {p : Nat} (hlast : I.Ends last)
    (hop : op ∈ I.source.ops) (hl : l ∈ op.labels) (hoffset : last.buffer.labelOffset l = some p) :
    ∃ q, I.HasCode (.label l) p q := by
  obtain ⟨d, hd, hbody⟩ := id hlast
  obtain ⟨d₁, parts, paths, -, hlayout⟩ := exists_layout hd hbody
  have hplaced := (hlayout.labelOffset_iff (lt_labelCount hop hl)).mp hoffset
  obtain ⟨start, stop, hcode⟩ := I.exists_hasCode (hplaced.source_mem hlayout)
  obtain ⟨pre, new, post, -, ⟨-, hbound⟩, rfl, -⟩ := hcode.hosts_last hlast fun C _ _ => lays_bind l
  cases hbound.symm.trans hoffset
  exact ⟨stop, hcode⟩

/-- A branch goes to where its label is placed if the flags meet its condition, and falls through
elsewhere. No bytes of the image matter but its own. -/
theorem HasCode.step_branch_at {c : Condition} {machine : Machine}
    (h : I.HasCode (.branch (some c) l) start stop)
    (hloaded : machine.LoadedAt I.base I.image start (stop - start))
    (hrip : machine.rip = I.base + BitVec.ofNat 64 start) :
    ∃ p q machine', I.HasCode (.label l) p q ∧ Machine.step machine = .ok () machine' ∧
    machine'.core = machine.core ∧
      machine'.rip = I.base + BitVec.ofNat 64
        (if machine.flags.cond (.ofCondition c) then p else stop) := by
  obtain ⟨last, hlast⟩ := I.exists_ends
  obtain ⟨pre, new, post, hhosts, ⟨short, rfl⟩, rfl, rfl⟩ :=
    h.hosts_last hlast fun C _ _ => lays_jcc (.ofCondition c) l
  have hsize : extent (pre ++ [.branch short (some (.ofCondition c)) l]) - extent pre =
      (Chunk.branch short (some (.ofCondition c)) l).size := by
    simp
  rw [hsize] at hloaded
  obtain ⟨p, machine', hoffset, hstep, hcore, hrip'⟩ := hhosts.step_branch_at hloaded hrip
  obtain ⟨q, hcode⟩ := exists_hasCode_label hlast h.mem (List.mem_singleton_self l) hoffset
  refine ⟨p, q, machine', hcode, hstep, hcore, hrip'.trans ?_⟩
  simp [Site.addressOf, site]

theorem HasCode.step_branch {c : Condition} {machine : Machine}
    (h : I.HasCode (.branch (some c) l) start stop) (hloaded : machine.Loaded I.base I.image)
    (hrip : machine.rip = I.base + BitVec.ofNat 64 start) :
    ∃ p q machine', I.HasCode (.label l) p q ∧ Machine.step machine = .ok () machine' ∧
    machine'.core = machine.core ∧
      machine'.rip = I.base + BitVec.ofNat 64
        (if machine.flags.cond (.ofCondition c) then p else stop) :=
  h.step_branch_at (hloaded.part _ _) hrip

end Installation

/-! ### Three-way compares -/

namespace Machine

theorem low_merge_byte (old v : Word) : low (merge old v .byte) .byte = low v .byte :=
  low_eq_iff.mpr (setWidth_merge old v .byte)

theorem executes_setcc {s : Machine} {next : Word} {cond : Cond} {g : Gpr} :
    Executes (.setcc cond (.reg g)) next s fun c =>
      c = s.setReg g (merge (s.reg g) (if s.flags.cond cond then 1 else 0) .byte) := by
  refine yields_get.bind fun machine c hc => ?_
  obtain ⟨rfl, rfl⟩ := hc
  exact yields_writeReg g .byte _

end Machine

/-- -1, 0 or 1, as the first number is less than, equal to or greater than the second. -/
def threeWay (x y : Word) : BitVec 32 := if x.slt y then -1 else if x = y then 0 else 1

namespace Lower

variable {S : Site} {C : Context} {left right : Operand} {g : Gpr}
  {P P' : Word → Word → Machine → Prop}
  {L : Label → Assertion}

/-- With the values of the operands, extended to 64 bits, the core is as `P` says. -/
def Orders (S : Site) (frame : Frame) (left right : Operand)
    (P : Word → Word → Machine → Prop) : Assertion := fun s c =>
  ∃ a b, S.value? frame s left = some a ∧ S.value? frame s right = some b ∧
    P (signExtend a left.kind.width) (signExtend b left.kind.width) c

/-- The flags are those of a compare of these numbers. -/
def Tells (x y : Word) (c : Machine) : Prop :=
  ∀ cond : Condition, c.flags.cond (.ofCondition cond) = cond.eval x y

theorem Compared.orders {frame : Frame} {s c : Machine} (h : Compared S frame left right s c) :
    Orders S frame left right Tells s c := by
  obtain ⟨a, b, ha, hb, hflags, -⟩ := h
  exact ⟨a, b, ha, hb, fun cond => hflags ▸ Comparison.cond_words cond⟩

/-- A step that does not depend on the operands. -/
theorem Computes.orders {x : Lower Unit} {Q : Unit → Assertion}
    (hx : Computes S C x (fun _ => True) Q) (hP : ∀ a b s c, P a b s → Q () s c → P' a b c) :
    Runs S C x (Orders S C.frame left right P) (fun _ => Orders S C.frame left right P') L :=
  hx.runs fun _ _ _ ⟨a, b, ha, hb, hc⟩ =>
    ⟨trivial, fun _ c' hQ => ⟨a, b, ha, hb, hP _ _ _ c' hc hQ⟩⟩

theorem computes_setcc {cond : Cond} {A : Machine → Prop} :
    Computes S C (emit (.setcc cond g)) A fun _ s c =>
    c = s.setReg g (merge (s.reg g) (if s.flags.cond cond then 1 else 0) .byte) :=
  computes_emit (Instr.encodable_of_none rfl) (fun _ _ _ => executes_setcc)
    fun _ _ h => by rw [h]; rfl

/-- The low byte of a register becomes the whole of it. -/
theorem computes_extendByte {A : Machine → Prop} :
    Computes S C (emit (.extend .zeroByte g (.reg g))) A fun _ s c =>
    c = s.setReg g (low (low (s.reg g) .byte) .dword) :=
  computes_emit (Instr.encodable_of_none rfl) (fun s _ _ => executes_movzx (readsRm_reg g .byte))
    fun _ _ h => by rw [h]; rfl

/-- The moves change no flags, so that one compare decides twice. -/
theorem computes_compareToInt {result : Operand} (hkind : right.kind = left.kind)
    (hfloat : left.kind.isFloating = false) (hleft : ¬ left.Uses C.frame scratch)
    (hright : ¬ right.Uses C.frame scratch) (hg : gpr? result = some g) :
    Computes S C (compareToInt .lcmp left right result) (CanRead S C.frame left right) fun _ =>
      Orders S C.frame left right fun x y c => (c.reg g).setWidth 32 = threeWay x y := by
  let Final : Word → Word → Machine → Prop := fun x y c => (c.reg g).setWidth 32 = threeWay x y
  let Less : Word → Word → Machine → Prop :=
    fun x y c => Tells x y c ∧ (c.reg g).setWidth 32 = (-1 : BitVec 32)
  let NotLess : Word → Word → Machine → Prop := fun x y c => Tells x y c ∧ x.slt y = false
  let Differs : Word → Word → Machine → Prop := fun x y c =>
    x.slt y = false ∧ low (c.reg g) .byte = if x = y then 0 else 1
  have hcompare : Runs S C (compare left right) (fun s c => c = s ∧ CanRead S C.frame left right s)
      (fun _ => Orders S C.frame left right Tells) noExit :=
    (computes_compare hkind hfloat hleft hright).mono fun s _ hs => ⟨hs, fun _ _ => Compared.orders⟩
  have hminus : ∀ L, Runs S C (emit (minusOne g)) (Orders S C.frame left right Tells)
      (fun _ => Orders S C.frame left right Less) L := fun L =>
    Computes.orders (computes_movImm false g 0xFFFFFFFF) fun x y s c hs hc => by
      subst hc
      refine ⟨hs, ?_⟩
      rw [reg_setReg_self]
      decide
  have hset : ∀ L, Runs S C (emit (.setcc .ne g)) (Orders S C.frame left right NotLess)
      (fun _ => Orders S C.frame left right Differs) L := fun L =>
    Computes.orders computes_setcc fun x y s c ⟨htells, hless⟩ hc => by
      subst hc
      refine ⟨hless, ?_⟩
      have hne : s.flags.cond .ne = (x != y) := htells .ne
      rw [reg_setReg_self, low_merge_byte, hne]
      by_cases heq : x = y <;> simp [heq] <;> rfl
  have hextend :
      ∀ L, Runs S C (emit (.extend .zeroByte g (.reg g))) (Orders S C.frame left right Differs)
      (fun _ => Orders S C.frame left right Final) L := fun L =>
    Computes.orders computes_extendByte fun x y s c ⟨hless, hlow⟩ hc => by
      subst hc
      change ((s.setReg g _).reg g).setWidth 32 = _
      rw [reg_setReg_self, hlow, threeWay, hless, if_neg Bool.false_ne_true]
      split <;> decide
  unfold compareToInt
  refine (finds_gpr result).runs fun g' hg' => ?_
  cases hg.symm.trans hg'
  refine hcompare.bind fun _ => runs_newLabel fun done => ?_
  have hjcc : Runs S C (jccShort .l done) (Orders S C.frame left right Less)
      (fun _ => Orders S C.frame left right NotLess) fun l s c =>
        l = done ∧ Orders S C.frame left right Final s c := by
    refine (runs_jccShort .l done).mono ?_ ?_
    · rintro _ s c ⟨⟨a, b, ha, hb, htells, -⟩, hcond⟩
      exact ⟨a, b, ha, hb, htells, (htells .lt).symm.trans hcond⟩
    · rintro l s c ⟨hl, ⟨a, b, ha, hb, htells, hminus⟩, hcond⟩
      have hless : (signExtend a left.kind.width).slt (signExtend b left.kind.width) = true :=
        (htells .lt).symm.trans hcond
      exact ⟨hl, a, b, ha, hb, hminus.trans (if_pos hless).symm⟩
  have hall := ((((hminus _).bind fun _ => hjcc).bind fun _ => hset _).bind fun _ => hextend _).join
    (R := fun _ => Orders S C.frame left right Final) (L := noExit) (fun _ _ _ => id)
      fun _ _ _ h => .inr h
  simp only [bind_assoc] at hall
  simpa only [lessOrUnordered, bind_assoc] using hall

end Lower

/-! ### Installed code -/

/-- From any state in which the operands can be accessed, the code of a compare runs to its end, and
a branch that follows it goes to where its label is placed if the values that the operands have had,
as 64-bit numbers, meet its condition, and falls through elsewhere. The code of a three-way compare
leaves in the low half of its result register how these values are ordered. The result register may
be any, the operands' and those of their addresses among them. -/
theorem exists_run_compare {I : Installation} {left right : Operand} {start : Nat}
    {machine : Machine} (hkind : right.kind = left.kind) (hfloat : left.kind.isFloating = false)
    (hleft : ¬ left.Uses I.source.frame scratch) (hright : ¬ right.Uses I.source.frame scratch)
    (hloaded : machine.Loaded I.base I.image) (hrip : machine.rip = I.base + BitVec.ofNat 64 start)
    (hread : CanRead I.site I.source.frame left right machine) :
    (∀ stop, I.HasCode (.compare left right) start stop → ∃ machine',
      machine.RunsTo (I.base + BitVec.ofNat 64 stop) machine' ∧
      Orders I.site I.source.frame left right (fun x y branching => ∀ c target next,
        I.HasCode (.branch (some c) target) stop next →
        ∃ p q machine'', I.HasCode (.label target) p q ∧
          Machine.step branching = .ok () machine'' ∧
          machine''.rip = I.base + BitVec.ofNat 64 (if c.eval x y then p
            else next)) machine machine') ∧
    ∀ stop result g, gpr? result = some g →
    I.HasCode (.compareToInt .lcmp left right result) start stop →
      ∃ machine', machine.RunsTo (I.base + BitVec.ofNat 64 stop) machine' ∧
        Orders I.site I.source.frame left right
          (fun x y ordered => (ordered.reg g).setWidth 32 = threeWay x y)
          machine machine' := by
  refine ⟨fun stop hcode => ?_, fun stop result g hg hcode => ?_⟩
  · have hcompare : ∀ C, C.frame = I.source.frame → Computes I.site C (lower (.compare left right))
        (CanRead I.site I.source.frame left right) fun _ =>
          Compared I.site I.source.frame left right := by
      rintro C hC
      rw [← hC] at hleft hright ⊢
      exact computes_compare hkind hfloat hleft hright
    obtain ⟨machine', hrun, hcompared⟩ :=
      hcode.exists_run hcompare hloaded hrip ⟨hread.1, hread.2.1, hread.2.2⟩
    obtain ⟨a, b, ha, hb, htells⟩ := hcompared.orders
    obtain ⟨-, -, -, -, -, hkeeps⟩ := hcompared
    rw [Site.value?_core] at ha hb
    refine ⟨machine', hrun, a, b, ha, hb, fun c target next hbranch => ?_⟩
    have hloads : I.site.Loads machine'.core :=
      Site.loads_of_keeps (Machine.loaded_core.mpr hloaded) hkeeps
    obtain ⟨p, q, machine'', hlabel, hstep, -, hrip''⟩ :=
      hbranch.step_branch (Machine.loaded_core.mp hloads) hrun.rip
    rw [show machine'.flags.cond (.ofCondition c) = _ from htells c] at hrip''
    exact ⟨p, q, machine'', hlabel, hstep, hrip''⟩
  · have hcompare : ∀ C, C.frame = I.source.frame →
      Computes I.site C (lower (.compareToInt .lcmp left right result))
        (CanRead I.site I.source.frame left right) fun _ => Orders I.site I.source.frame left right
          fun x y c => (c.reg g).setWidth 32 = threeWay x y := by
      rintro C hC
      rw [← hC] at hleft hright ⊢
      exact computes_compareToInt hkind hfloat hleft hright hg
    obtain ⟨machine', hrun, a, b, ha, hb, hresult⟩ :=
      hcode.exists_run hcompare hloaded hrip ⟨hread.1, hread.2.1, hread.2.2⟩
    rw [Site.value?_core] at ha hb
    exact ⟨machine', hrun, a, b, ha, hb, hresult⟩

/-- 5 is less than 7: the branch is taken, and the three-way compare leaves -1 in the register of
its right operand. -/
theorem exists_run_compare_less :
    let left : Operand := .reg Gpr.rcx.register .int
    let right : Operand := .reg Gpr.rax.register .int
    let target : Label := ⟨0⟩
    let machine : Machine := (Machine.initial.setReg .rcx 5).setReg .rax 7
    ∃ I : Installation,
      (∃ (start stop next p q : Nat) (machine' machine'' : Machine),
        I.HasCode (.compare left right) start stop ∧
        I.HasCode (.branch (some .lt) target) stop next ∧ I.HasCode (.label target) p q ∧
        (I.enter machine start).RunsTo (I.base + BitVec.ofNat 64 stop) machine' ∧
        Machine.step machine' = .ok () machine'' ∧ machine''.rip = I.base + BitVec.ofNat 64 p) ∧
      ∃ (start stop : Nat) (machine' : Machine),
        I.HasCode (.compareToInt .lcmp left right right) start stop ∧
        (I.enter machine start).RunsTo (I.base + BitVec.ofNat 64 stop) machine' ∧
        (machine'.reg .rax).setWidth 32 = (-1 : BitVec 32) := by
  intro left right target machine
  let ops : List Operation :=
    [.compare left right, .branch (some .lt) target, .compareToInt .lcmp left right right,
      .label target, .ret none]
  obtain ⟨I, -, hsource, -, hlow, hhigh⟩ :=
    Installation.exists_installed
      ⟨{ Options.standard with useStackBanging := false }, ⟨true, true⟩, 4096⟩
      ⟨"test", none, .empty, [], ops⟩ 0x10000000 (by decide +kernel)
  have hread : ∀ start, CanRead I.site I.source.frame left right (I.enter machine start) :=
      fun start =>
    ⟨Site.readable_of_unprotected rfl hlow hhigh, nofun, nofun⟩
  have hleft : ¬ left.Uses I.source.frame scratch := by rintro (h | ⟨l, h, -⟩) <;> cases h
  have hright : ¬ right.Uses I.source.frame scratch := by rintro (h | ⟨l, h, -⟩) <;> cases h
  have hkind : right.kind = left.kind := rfl
  have hrun := fun start => exists_run_compare hkind rfl hleft hright
    (Installation.loaded_enter machine start) rfl (hread start)
  refine ⟨I, ?_, ?_⟩
  · have hops : I.source.ops = [] ++ .compare left right :: ops.tail := by rw [hsource]; rfl
    obtain ⟨start, stop, hcode, hnext⟩ := I.exists_hasCode_next hops
    obtain ⟨next, hbranch⟩ := hnext _ _ rfl
    obtain ⟨machine', hrun, a, b, ha, hb, hbranches⟩ := (hrun start).1 stop hcode
    cases ha
    cases hb
    obtain ⟨p, q, machine'', hlabel, hstep, hrip⟩ := hbranches _ _ _ hbranch
    exact ⟨start, stop, next, p, q, machine', machine'', hcode, hbranch, hlabel, hrun, hstep, hrip⟩
  · have hop : .compareToInt .lcmp left right right ∈ I.source.ops := by simp [hsource, ops]
    obtain ⟨start, stop, hcode⟩ := I.exists_hasCode hop
    obtain ⟨machine', hrun, a, b, ha, hb, hordered⟩ := (hrun start).2 stop right .rax rfl hcode
    cases ha
    cases hb
    exact ⟨start, stop, machine', hcode, hrun, hordered⟩

end MachineCode
