import MachineCode.Machine.Run
import MachineCode.Proofs.Steps

/-! Widths of accesses. An instruction accesses memory in scalars, from one byte to eight; what is
wider is accessed in two of them. Where it faults, it is not for want of an operand. -/
namespace MachineCode.Machine

open X64 Step

variable {α β : Type} {next : Word}

/-- An access that a word has room for. -/
def IsScalar (a : Access) : Prop := a.width ∈ [1, 2, 4, 8]

/-- No access is forgotten, and all that are new are scalar. -/
def RecordsScalars (m m' : Machine) : Prop :=
  ∃ new : List Access, m'.accesses.toList = m.accesses.toList ++ new ∧ ∀ a ∈ new, IsScalar a

theorem recordsScalars_of_kept {m m' : Machine}
    (h : m'.accesses = m.accesses) : RecordsScalars m m' :=
  ⟨[], by rw [h, List.append_nil], nofun⟩

instance : IsPreorder Machine RecordsScalars where
  refl _ := recordsScalars_of_kept rfl
  trans m m' m'' := by
    rintro ⟨new, hnew, hscalar⟩ ⟨more, hmore, hscalar'⟩
    refine ⟨new ++ more, by rw [hmore, hnew, List.append_assoc], fun a ha => ?_⟩
    exact (List.mem_append.mp ha).elim (hscalar a) (hscalar' a)

/-- The accesses up to the end are scalar, and a fault there is not a failed lookup. -/
def EndsProperly (m : Machine) : EStateM.Result Fault Machine α → Prop
  | .ok _ m' => RecordsScalars m m'
  | .error e m' => RecordsScalars m m' ∧ e.isLookup = false

/-- Wherever the step starts, all its accesses are scalar, and it finds its operands. -/
def Proper (x : MachineStep α) : Prop := ∀ m, EndsProperly m (x m)

theorem proper_pure (a : α) : Proper (pure a) := fun m => recordsScalars_of_kept (m := m) rfl

theorem proper_get : Proper get := fun m => recordsScalars_of_kept (m := m) rfl

theorem proper_throw {e : Fault} (he : e.isLookup = false) : Proper (throw e : MachineStep α) :=
  fun m => ⟨refl m, he⟩

theorem EndsProperly.after {m m' : Machine} (h : RecordsScalars m m')
    {r : EStateM.Result Fault Machine α} (hr : EndsProperly m' r) : EndsProperly m r := by
  cases r with
  | ok a m'' => exact IsTrans.trans _ _ _ h hr
  | error e m'' => exact ⟨IsTrans.trans _ _ _ h hr.1, hr.2⟩

theorem Proper.bind {x : MachineStep α} {f : α → MachineStep β} (hx : Proper x)
    (hf : ∀ a, Proper (f a)) :
    Proper (x >>= f) := by
  intro m
  have hm := hx m
  cases h : x m with
  | ok a m' =>
    rw [bind_of_ok h]
    rw [h] at hm
    exact .after hm (hf a m')
  | error e m' =>
    rw [bind_of_error h]
    rwa [h] at hm

theorem proper_ite {p : Prop} [Decidable p] {x y : MachineStep α} (hx : Proper x) (hy : Proper y) :
    Proper (if p then x else y) := by
  split <;> assumption

/-! ### Changes of the state -/

theorem proper_modify {g : Machine → Machine} (hg : ∀ m, (g m).accesses = m.accesses) :
    Proper (modify g) := fun m => recordsScalars_of_kept (hg m)

theorem proper_setReg (r : Gpr) (v : Machine → Word) : Proper (modify fun m => m.setReg r (v m)) :=
  proper_modify fun _ => rfl

theorem proper_setXmm (x : Xmm) (v : Machine → BitVec 128) :
    Proper (modify fun m => m.setXmm x (v m)) :=
  proper_modify fun _ => rfl

theorem proper_modifyFlags (g : Machine → Flags) :
    Proper (modify fun m => { m with flags := g m }) :=
  proper_modify fun _ => rfl

/-! ### Operands -/

theorem proper_access (a : Word) {n : Nat} (hn : n ∈ [1, 2, 4, 8])
    (write : Bool) : Proper (access a n write) := by
  have hrecord :
      Proper (modify fun m : Machine =>
        { m with accesses := m.accesses.push ⟨m.pc, a, n, write⟩ }) :=
    fun m => ⟨[⟨m.pc, a, n, write⟩], Array.toList_push .., by simpa [IsScalar] using hn⟩
  unfold access
  refine proper_get.bind fun m => ?_
  split
  · exact (proper_throw rfl).bind fun _ => hrecord
  · exact hrecord

theorem bytes_mem (w : Width) : w.bytes ∈ [1, 2, 4, 8] := by
  cases w <;> decide

theorem proper_loadBytes (a : Word) {n : Nat} (hn : n ∈ [1, 2, 4, 8]) : Proper (loadBytes a n) :=
  (proper_access a hn false).bind fun _ => proper_get.bind fun _ => proper_pure _

theorem proper_storeBytes (a : Word) {n : Nat} (hn : n ∈ [1, 2, 4, 8])
    (v : Word) : Proper (storeBytes a n v) :=
  (proper_access a hn true).bind fun _ => proper_modify fun _ => rfl

theorem proper_load128 (a : Word) : Proper (load128 a) :=
  (proper_loadBytes a (by decide)).bind fun _ =>
    (proper_loadBytes (a + 8) (by decide)).bind fun _ => proper_pure _

theorem proper_address (m : Mem) : Proper (address m next) := proper_get.bind fun _ => proper_pure _

theorem proper_readReg (r : Gpr) (w : Width) : Proper (readReg r w) :=
  proper_get.bind fun _ => proper_pure _

theorem proper_writeReg (r : Gpr) (w : Width) (v : Word) : Proper (writeReg r w v) :=
  proper_setReg r _

theorem proper_writeLane (x : Xmm) (double : Bool) (v : Word) : Proper (writeLane x double v) :=
  proper_setXmm x _

theorem proper_writeXmm (x : Xmm) (v : Word) : Proper (writeXmm x v) := proper_setXmm x _

theorem proper_setFlags (f : Flags) : Proper (setFlags f) := proper_modifyFlags fun _ => f

theorem proper_setRip (a : Word) : Proper (setRip a) := proper_modify fun _ => rfl

theorem proper_readRm (x : Rm) (w : Width) : Proper (readRm x w next) := by
  cases x with
  | reg r => exact proper_readReg r w
  | mem m => exact (proper_address m).bind fun _ => proper_loadBytes _ (bytes_mem w)

theorem proper_writeRm (x : Rm) (w : Width) (v : Word) : Proper (writeRm x w v next) := by
  cases x with
  | reg r => exact proper_writeReg r w v
  | mem m => exact (proper_address m).bind fun _ => proper_storeBytes _ (bytes_mem w) v

theorem proper_readSource (x : Source) (w : Width) : Proper (readSource x w next) := by
  cases x with
  | rm x => exact proper_readRm x w
  | imm v => exact proper_pure _

theorem proper_destination (x : Destination) : Proper (destination x next) := by
  cases x with
  | rel d => exact proper_pure _
  | rm x => exact proper_readRm x .qword

theorem proper_readLane (x : Xm) (double : Bool) : Proper (readLane x double next) := by
  cases x with
  | reg x => exact proper_get.bind fun _ => proper_pure _
  | mem m => exact (proper_address m).bind fun _ => proper_loadBytes _ (bytes_mem _)

theorem proper_read128 (x : Xm) : Proper (read128 x next) := by
  cases x with
  | reg x => exact proper_get.bind fun _ => proper_pure _
  | mem m => exact (proper_address m).bind fun _ => proper_load128 _

theorem proper_push (v : Word) : Proper (push v) :=
  (proper_setReg .rsp fun m => m.reg .rsp - 8).bind fun _ => proper_get.bind fun _ =>
    proper_storeBytes _ (by decide) v

theorem proper_pop : Proper pop :=
  proper_get.bind fun _ => (proper_loadBytes _ (by decide)).bind fun _ =>
    (proper_setReg .rsp fun m => m.reg .rsp + 8).bind fun _ => proper_pure _

/-! ### Instructions -/

theorem proper_alu (op : AluOp) (w : Width) (dst : Rm) (src : Source) :
    Proper (alu op w dst src next) :=
  (proper_readRm dst w).bind fun _ => (proper_readSource src w).bind fun _ =>
    proper_get.bind fun _ =>
    (proper_setFlags _).bind fun _ => proper_ite (proper_writeRm dst w _) (proper_pure _)

theorem proper_wideningMul (signed : Bool) (w : Width) (x : Rm) :
    Proper (wideningMul signed w x next) :=
  (proper_readRm x w).bind fun _ => (proper_readReg .rax w).bind fun _ =>
    (proper_writeReg .rax w _).bind fun _ => proper_writeReg .rdx w _

theorem isLookup_quotient {signed : Bool} {w : Width} {hi lo divisor pc : Word} {e : Fault}
    (h : quotient signed w hi lo divisor pc = .error e) : e.isLookup = false := by
  unfold quotient at h
  dsimp only at h
  split_ifs at h <;> cases h <;> rfl

theorem proper_divide (signed : Bool) (w : Width) (x : Rm) : Proper (divide signed w x next) := by
  refine (proper_readRm x w).bind fun divisor => proper_get.bind fun m => ?_
  unfold deliver
  split
  · exact proper_throw (isLookup_quotient ‹_›)
  · exact (proper_writeReg .rax w _).bind fun _ => proper_writeReg .rdx w _

theorem proper_imul (w : Width) (dst : Gpr) (a b : Word) : Proper (imul w dst a b) :=
  (proper_modifyFlags _).bind fun _ => proper_writeReg dst w _

theorem proper_shift (op : Shift) (w : Width) (dst : Rm) (count : ShiftCount) :
    Proper (shift op w dst count next) := by
  refine (proper_readRm dst w).bind fun a => ?_
  extract_lets shifted
  have hshifted : ∀ n, Proper (shifted n) := fun n =>
    proper_ite (proper_get.bind fun _ => (proper_setFlags _).bind fun _ => proper_writeRm dst w _)
      (proper_pure _)
  cases count with
  | imm n => exact (proper_pure _).bind hshifted
  | cl => exact ((proper_readReg .rcx .byte).bind fun _ => proper_pure _).bind hshifted

theorem proper_bitScan (reverse : Bool) (w : Width) (dst : Gpr) (src : Rm) :
    Proper (bitScan reverse w dst src next) :=
  (proper_readRm src w).bind fun _ => (proper_modifyFlags _).bind fun _ =>
    proper_ite (proper_writeReg dst w _) (proper_pure _)

theorem proper_cmov (cond : Cond) (w : Width) (dst : Gpr) (src : Rm) :
    Proper (cmov cond w dst src next) :=
  (proper_readRm src w).bind fun _ => proper_get.bind fun _ =>
    proper_ite (proper_writeReg dst w _)
      ((proper_readReg dst w).bind fun _ => proper_writeReg dst w _)

theorem accesses_runStub (m : Machine) (s : Stub) : (m.runStub s).accesses = m.accesses := by
  cases s <;> rfl

theorem proper_callTo (target : Word) : Proper (callTo target next) := by
  have hcalls : Proper (modify fun m : Machine => { m with calls := m.calls.push target }) :=
    proper_modify fun _ => rfl
  have hpush : Proper (do push next; setRip target) :=
    (proper_push next).bind fun _ => proper_setRip target
  refine hcalls.bind fun _ m => ?_
  rw [get_bind]
  cases m.stubs.lookup target with
  | some s => exact recordsScalars_of_kept (accesses_runStub m s)
  | none => exact proper_ite hpush (proper_pure ()) m

theorem proper_cmpxchg (w : Width) (dst : Rm) (src : Gpr) : Proper (cmpxchg w dst src next) :=
  (proper_readRm dst w).bind fun _ => (proper_readReg .rax w).bind fun _ =>
    (proper_setFlags _).bind fun _ =>
    proper_ite ((proper_readReg src w).bind fun _ => proper_writeRm dst w _)
      (proper_writeReg .rax w _)

theorem proper_movs (double : Bool) (dst src : Xm) : Proper (movs double dst src next) := by
  refine (proper_readLane src double).bind fun v => ?_
  cases dst with
  | reg d =>
    cases src with
    | reg s => exact proper_writeLane d double v
    | mem m => exact proper_writeXmm d v
  | mem m => exact (proper_address m).bind fun _ => proper_storeBytes _ (bytes_mem _) v

/-- No instruction accesses more than a word at a time, whether it faults or not, and none misses an
operand. -/
theorem proper_execute (i : Decoded) (next : Word) : Proper (execute i next) := by
  cases i with
  | mov w dst src => exact (proper_readSource src w).bind fun v => proper_writeRm dst w v
  | movzx w dst v src | movsx w dst v src =>
    exact (proper_readRm src v).bind fun _ => proper_writeReg dst w _
  | lea w dst src => exact (proper_address src).bind fun _ => proper_writeReg dst w _
  | alu op w dst src => exact proper_alu op w dst src
  | test w a b =>
    exact (proper_readRm a w).bind fun _ => (proper_readSource b w).bind fun _ => proper_setFlags _
  | unary op w x =>
    cases op with
    | not => exact (proper_readRm x w).bind fun _ => proper_writeRm x w _
    | neg =>
      exact (proper_readRm x w).bind fun _ => (proper_setFlags _).bind fun _ => proper_writeRm x w _
    | mul => exact proper_wideningMul false w x
    | imul => exact proper_wideningMul true w x
    | div => exact proper_divide false w x
    | idiv => exact proper_divide true w x
  | imul w dst src factor =>
    cases factor with
    | none =>
      exact (proper_readReg dst w).bind fun a => (proper_readRm src w).bind fun b =>
        proper_imul w dst a b
    | some factor => exact (proper_readRm src w).bind fun a => proper_imul w dst a _
  | cdq | cqo => exact proper_setReg .rdx _
  | shift op w dst count => exact proper_shift op w dst count
  | bitScan reverse w dst src => exact proper_bitScan reverse w dst src
  | jcc cond d => exact proper_get.bind fun _ => proper_ite (proper_setRip _) (proper_pure _)
  | jmp dst => exact (proper_destination dst).bind fun _ => proper_setRip _
  | call dst => exact (proper_destination dst).bind fun _ => proper_callTo _
  | ret => exact proper_pop.bind fun _ => proper_setRip _
  | setcc cond dst => exact proper_get.bind fun _ => proper_writeRm dst .byte _
  | cmov cond w dst src => exact proper_cmov cond w dst src
  | push r => exact (proper_readReg r .qword).bind fun _ => proper_push _
  | pop r => exact proper_pop.bind fun _ => proper_writeReg r .qword _
  | nop | pause | mfence => exact proper_pure _
  | int3 | ud2 => exact proper_get.bind fun _ => proper_throw rfl
  | movs double dst src => exact proper_movs double dst src
  | movap double dst src => exact (proper_read128 src).bind fun _ => proper_setXmm dst _
  | sse op double dst src =>
    exact (proper_readLane _ double).bind fun _ => (proper_readLane src double).bind fun _ =>
      proper_writeLane dst double _
  | ucomis double a b =>
    exact (proper_readLane _ double).bind fun _ =>
      (proper_readLane b double).bind fun _ => proper_setFlags _
  | packed op double dst src => exact (proper_read128 src).bind fun _ => proper_setXmm dst _
  | cvtFromInt double w dst src =>
    exact (proper_readRm src w).bind fun _ => proper_writeLane dst double _
  | cvtToInt double w dst src =>
    exact (proper_readLane src double).bind fun _ => proper_writeReg dst w _
  | cvtFloat toDouble dst src =>
    exact (proper_readLane src _).bind fun _ => proper_writeLane dst toDouble _
  | movToXmm w dst src => exact (proper_readRm src w).bind fun _ => proper_writeXmm dst _
  | movFromXmm w dst src => exact proper_get.bind fun _ => proper_writeRm dst w _
  | cmpxchg lock w dst src => exact proper_cmpxchg w dst src

end MachineCode.Machine
