import MachineCode.Machine.Run
import MachineCode.Proofs.Effects.Footprint
import MachineCode.Proofs.Steps

/-! What an instruction does to the machine stays within its footprint, also when it faults. -/
namespace MachineCode.Machine

open X64

variable {α β : Type} {f f' : Footprint} {next : Word}

/-- The state in which a step ends, with or without a fault. -/
def ending (x : MachineStep α) (m : Machine) : Machine :=
  match x m with
  | .ok _ m' | .error _ m' => m'

/-- Registers and memory are the same, and so is the next instruction. -/
structure Kept (m m' : Machine) : Prop where
  gpr : m'.gpr = m.gpr
  xmm : m'.xmm = m.xmm
  memory : m'.memory = m.memory
  rip : m'.rip = m.rip

/-- The machine has changed within the footprint of an instruction that ends at `next`. -/
structure Changes (f : Footprint) (next : Word) (m m' : Machine) : Prop where
  gprs : ∀ g, g ∉ f.gprs → m'.reg g = m.reg g
  xmms : ∀ x, x ∉ f.xmms → m'.xmmReg x = m.xmmReg x
  memory : ∀ a, (∀ mem n, f.store? = some (mem, n) →
    n ≤ (a - m.effectiveAddress mem next).toNat) → m'.memory.get a = m.memory.get a
  rip : m'.rip = m.rip

/-- The step reads registers and memory at most. -/
def Quiet (x : MachineStep α) : Prop := ∀ m, Kept m (ending x m)

/-- The step writes within the footprint. -/
def Writes (f : Footprint) (next : Word) (x : MachineStep α) : Prop :=
  ∀ m, Changes f next m (ending x m)

/-! ### Rules -/

theorem ending_bind (x : MachineStep α) (g : α → MachineStep β) (m : Machine) :
    (∃ a m', x m = .ok a m' ∧ ending (x >>= g) m = ending (g a) m') ∨
      ending (x >>= g) m = ending x m := by
  cases h : x m with
  | ok a m' =>
    refine .inl ⟨a, m', rfl, ?_⟩
    unfold ending
    rw [Step.bind_of_ok h]
  | error e m' =>
    refine .inr ?_
    unfold ending
    rw [Step.bind_of_error h, h]

theorem ending_of_ok {x : MachineStep α} {m m' : Machine} {a : α} (h : x m = .ok a m') :
    ending x m = m' := by
  rw [ending, h]

theorem Kept.refl (m : Machine) : Kept m m := ⟨rfl, rfl, rfl, rfl⟩

theorem Kept.trans {m m' m'' : Machine} (h : Kept m m') (h' : Kept m' m'') : Kept m m'' :=
  ⟨h'.gpr.trans h.gpr, h'.xmm.trans h.xmm, h'.memory.trans h.memory, h'.rip.trans h.rip⟩

theorem Kept.changes {m m' : Machine} (h : Kept m m') : Changes f next m m' where
  gprs g _ := by rw [reg, reg, h.gpr]
  xmms x _ := by rw [xmmReg, xmmReg, h.xmm]
  memory a _ := by rw [h.memory]
  rip := h.rip

/-- Addresses are computed from registers alone. -/
theorem Kept.effectiveAddress {m m' : Machine} (h : Kept m m') (mem : Mem) :
    m'.effectiveAddress mem next = m.effectiveAddress mem next := by
  simp only [Machine.effectiveAddress, reg, h.gpr]

theorem Changes.of_kept {m m' m'' : Machine} (h : Kept m m') (h' : Changes f next m' m'') :
    Changes f next m m'' where
  gprs g hg := by rw [h'.gprs g hg, reg, reg, h.gpr]
  xmms x hx := by rw [h'.xmms x hx, xmmReg, xmmReg, h.xmm]
  memory a ha := by
    have ha' : ∀ mem n, f.store? = some (mem, n) →
        n ≤ (a - m'.effectiveAddress mem next).toNat := by
      intro mem n hs
      rw [h.effectiveAddress]
      exact ha mem n hs
    rw [h'.memory a ha', h.memory]
  rip := h'.rip.trans h.rip

theorem Changes.trans {m m' m'' : Machine} (h : Changes f next m m') (h' : Changes f next m' m'')
    (hstore : f.store? = none) : Changes f next m m'' where
  gprs g hg := (h'.gprs g hg).trans (h.gprs g hg)
  xmms x hx := (h'.xmms x hx).trans (h.xmms x hx)
  memory a _ := (h'.memory a (by simp [hstore])).trans (h.memory a (by simp [hstore]))
  rip := h'.rip.trans h.rip

theorem Quiet.bind {x : MachineStep α} {g : α → MachineStep β} (hx : Quiet x)
    (hg : ∀ a, Quiet (g a)) :
    Quiet (x >>= g) := by
  intro m
  obtain ⟨a, m', h, hend⟩ | hend := ending_bind x g m
  · have hm := hx m
    rw [ending_of_ok h] at hm
    exact hend ▸ hm.trans (hg a m')
  · exact hend ▸ hx m

theorem Quiet.writes {x : MachineStep α} (hx : Quiet x) : Writes f next x := fun m => (hx m).changes

/-- First reads, then writes. -/
theorem Quiet.andThen {x : MachineStep α} {g : α → MachineStep β} (hx : Quiet x)
    (hg : ∀ a, Writes f next (g a)) : Writes f next (x >>= g) := by
  intro m
  obtain ⟨a, m', h, hend⟩ | hend := ending_bind x g m
  · have hm := hx m
    rw [ending_of_ok h] at hm
    exact hend ▸ Changes.of_kept hm (hg a m')
  · exact hend ▸ (hx m).changes

/-- Writes to registers, one after the other. -/
theorem Writes.andThen {x : MachineStep α} {g : α → MachineStep β} (hx : Writes f next x)
    (hg : ∀ a, Writes f next (g a)) (hstore : f.store? = none) : Writes f next (x >>= g) := by
  intro m
  obtain ⟨a, m', h, hend⟩ | hend := ending_bind x g m
  · have hm := hx m
    rw [ending_of_ok h] at hm
    exact hend ▸ hm.trans (hg a m') hstore
  · exact hend ▸ hx m

theorem Writes.mono {x : MachineStep α} (hx : Writes f next x) (hgprs : f.gprs ⊆ f'.gprs)
    (hxmms : f.xmms ⊆ f'.xmms) (hstore : f.store? = f'.store?) : Writes f' next x := fun m =>
  let h := hx m
  ⟨fun g hg => h.gprs g fun hmem => hg (hgprs hmem),
    fun x hx => h.xmms x fun hmem => hx (hxmms hmem), fun a ha => h.memory a (hstore ▸ ha), h.rip⟩

/-! ### Quiet -/

theorem quiet_pure (a : α) : Quiet (pure a) := Kept.refl

theorem quiet_get : Quiet get := Kept.refl

theorem quiet_throw (e : Fault) : Quiet (throw e : MachineStep α) := Kept.refl

theorem quiet_modify {g : Machine → Machine} (hg : ∀ m, Kept m (g m)) : Quiet (modify g) := hg

theorem quiet_modifyFlags (g : Machine → Flags) : Quiet (modify fun m => { m with flags := g m }) :=
  quiet_modify fun _ => ⟨rfl, rfl, rfl, rfl⟩

theorem quiet_setFlags (flags : Flags) : Quiet (setFlags flags) := quiet_modifyFlags fun _ => flags

theorem quiet_access (addr : Word) (n : Nat) (write : Bool) : Quiet (access addr n write) := by
  unfold access
  refine quiet_get.bind fun m => ?_
  have hrecord : Quiet (modify fun m : Machine =>
      { m with accesses := m.accesses.push ⟨m.pc, addr, n, write⟩ }) :=
    quiet_modify fun _ => ⟨rfl, rfl, rfl, rfl⟩
  split
  · exact (quiet_throw _).bind fun _ => hrecord
  · exact hrecord

theorem quiet_loadBytes (addr : Word) (n : Nat) : Quiet (loadBytes addr n) :=
  (quiet_access addr n false).bind fun _ => quiet_get.bind fun _ => quiet_pure _

theorem quiet_load128 (addr : Word) : Quiet (load128 addr) :=
  (quiet_loadBytes addr 8).bind fun _ => (quiet_loadBytes (addr + 8) 8).bind fun _ => quiet_pure _

theorem quiet_address (mem : Mem) : Quiet (address mem next) := quiet_get.bind fun _ => quiet_pure _

theorem quiet_readReg (r : Gpr) (w : Width) : Quiet (readReg r w) :=
  quiet_get.bind fun _ => quiet_pure _

theorem quiet_readRm (x : Rm) (w : Width) : Quiet (readRm x w next) := by
  cases x with
  | reg r => exact quiet_readReg r w
  | mem m => exact (quiet_address m).bind fun _ => quiet_loadBytes _ _

theorem quiet_readSource (x : Source) (w : Width) : Quiet (readSource x w next) := by
  cases x with
  | rm x => exact quiet_readRm x w
  | imm v => exact quiet_pure _

theorem quiet_readLane (x : Xm) (double : Bool) : Quiet (readLane x double next) := by
  cases x with
  | reg x => exact quiet_get.bind fun _ => quiet_pure _
  | mem m => exact (quiet_address m).bind fun _ => quiet_loadBytes _ _

theorem quiet_read128 (x : Xm) : Quiet (read128 x next) := by
  cases x with
  | reg x => exact quiet_get.bind fun _ => quiet_pure _
  | mem m => exact (quiet_address m).bind fun _ => quiet_load128 _

/-! ### Writes -/

theorem xmmReg_setXmm_of_ne {m : Machine} {x y : Xmm} {v : BitVec 128} (h : x ≠ y) :
    (m.setXmm x v).xmmReg y = m.xmmReg y := by
  have hn : x.num.val ≠ y.num.val := fun he => h (by cases x; cases y; simp_all [Fin.ext_iff])
  simp only [xmmReg, setXmm, Fin.getElem_fin]
  exact Vector.getElem_set_ne _ _ hn

theorem writes_setReg {r : Gpr} {v : Machine → Word} (hr : r ∈ f.gprs) :
    Writes f next (modify fun m => m.setReg r (v m)) := fun _ =>
  ⟨fun _ hg => reg_setReg_of_ne fun h => hg (h ▸ hr), fun _ _ => rfl, fun _ _ => rfl, rfl⟩

theorem writes_setXmm {x : Xmm} {v : Machine → BitVec 128} (hx : x ∈ f.xmms) :
    Writes f next (modify fun m => m.setXmm x (v m)) := fun _ =>
  ⟨fun _ _ => rfl, fun _ hy => xmmReg_setXmm_of_ne fun h => hy (h ▸ hx), fun _ _ => rfl, rfl⟩

theorem writes_writeReg {r : Gpr} (w : Width) (v : Word) (hr : r ∈ f.gprs) :
    Writes f next (writeReg r w v) := writes_setReg hr

theorem writes_writeLane {x : Xmm} (double : Bool) (v : Word) (hx : x ∈ f.xmms) :
    Writes f next (writeLane x double v) := writes_setXmm hx

theorem writes_writeXmm {x : Xmm} (v : Word) (hx : x ∈ f.xmms) : Writes f next (writeXmm x v) :=
  writes_setXmm hx

/-- Bytes behind `n` from the start of a store stay. -/
theorem get_writeWord_of_outside {m : Memory} {start a : Word} {n : Nat} {v : Word}
    (h : n ≤ (a - start).toNat) : (m.writeWord start n v).get a = m.get a :=
  Memory.get_write_of_outside (by rwa [List.size_toArray, length_leBytes])

theorem changes_storeBytes {mem : Mem} {n : Nat} (m : Machine) (v : Word)
    (hstore : f.store? = some (mem, n)) :
    Changes f next m (ending (storeBytes (m.effectiveAddress mem next) n v) m) := by
  unfold storeBytes
  obtain ⟨_, m', h, hend⟩ | hend := ending_bind (access (m.effectiveAddress mem next) n true) _ m
  · have hm := quiet_access (m.effectiveAddress mem next) n true m
    rw [ending_of_ok h] at hm
    rw [hend]
    refine Changes.of_kept hm ⟨fun _ _ => rfl, fun _ _ => rfl, fun a ha => ?_, rfl⟩
    refine get_writeWord_of_outside ?_
    rw [← hm.effectiveAddress]
    exact ha mem n hstore
  · rw [hend]
    exact (quiet_access _ _ _ m).changes

theorem writes_store {mem : Mem} {n : Nat} (v : Word) (hstore : f.store? = some (mem, n)) :
    Writes f next (do storeBytes (← address mem next) n v) := by
  intro m
  have hrun : (do storeBytes (← address mem next) n v) m =
      storeBytes (m.effectiveAddress mem next) n v m := rfl
  unfold ending
  rw [hrun]
  exact changes_storeBytes m v hstore

theorem writes_writeRm (w : Width) (x : Rm) (v : Word) :
    Writes (.rm w x) next (writeRm x w v next) := by
  cases x with
  | reg r => exact writes_writeReg w v (List.mem_singleton_self r)
  | mem m => exact writes_store v rfl

/-! ### Instructions -/

theorem writes_alu (op : AluOp) (w : Width) (dst : Rm) (src : Source) :
    Writes (Decoded.alu op w dst src).footprint next (alu op w dst src next) := by
  refine (quiet_readRm dst w).andThen fun a => (quiet_readSource src w).andThen fun b =>
    quiet_get.andThen fun m => (quiet_setFlags _).andThen fun _ => ?_
  by_cases hop : op = .cmp
  · rw [if_neg (not_not_intro hop)]
    exact (quiet_pure ()).writes
  · rw [if_pos hop]
    simp only [Decoded.footprint, if_neg hop]
    exact writes_writeRm w dst _

theorem quiet_test (w : Width) (a : Rm) (b : Source) : Quiet (test w a b next) :=
  (quiet_readRm a w).bind fun _ => (quiet_readSource b w).bind fun _ => quiet_setFlags _

theorem writes_neg (w : Width) (x : Rm) : Writes (.rm w x) next (neg w x next) :=
  (quiet_readRm x w).andThen fun _ => (quiet_setFlags _).andThen fun _ => writes_writeRm w x _

theorem writes_not (w : Width) (x : Rm) : Writes (.rm w x) next (not w x next) :=
  (quiet_readRm x w).andThen fun _ => writes_writeRm w x _

/-- Writes to `rax` and `rdx`. -/
theorem writes_pair (w : Width) (a b : Word) {f : Footprint} (ha : .rax ∈ f.gprs)
    (hd : .rdx ∈ f.gprs) (hstore : f.store? = none) :
    Writes f next (do writeReg .rax w a; writeReg .rdx w b) :=
  (writes_writeReg w a ha).andThen (fun _ => writes_writeReg w b hd) hstore

theorem writes_wideningMul (signed : Bool) (w : Width) (x : Rm) :
    Writes ⟨[.rax, .rdx], [], none, false⟩ next (wideningMul signed w x next) :=
  (quiet_readRm x w).andThen fun _ => (quiet_readReg .rax w).andThen fun _ =>
    writes_pair w _ _ (by simp) (by simp) rfl

theorem writes_divide (signed : Bool) (w : Width) (x : Rm) :
    Writes ⟨[.rax, .rdx], [], none, false⟩ next (divide signed w x next) := by
  refine (quiet_readRm x w).andThen fun divisor => quiet_get.andThen fun m => ?_
  unfold deliver
  split
  · exact (quiet_throw _).writes
  · exact writes_pair w _ _ (by simp) (by simp) rfl

theorem writes_imul (w : Width) (dst : Gpr) (a b : Word) :
    Writes (.gpr dst) next (imul w dst a b) :=
  (quiet_modifyFlags _).andThen fun _ => writes_writeReg w _ (List.mem_singleton_self dst)

theorem writes_shift (op : Shift) (w : Width) (dst : Rm) (count : ShiftCount) :
    Writes (.rm w dst) next (shift op w dst count next) := by
  refine (quiet_readRm dst w).andThen fun a => ?_
  extract_lets shifted
  have hshifted : ∀ n, Writes (.rm w dst) next (shifted n) := by
    intro n
    unfold shifted
    extract_lets masked
    by_cases hzero : masked = 0
    · rw [if_neg (not_not_intro hzero)]
      exact (quiet_pure ()).writes
    · rw [if_pos hzero]
      exact quiet_get.andThen fun m => (quiet_setFlags _).andThen fun _ => writes_writeRm w dst _
  cases count with
  | imm n => exact (quiet_pure _).andThen hshifted
  | cl => exact ((quiet_readReg .rcx .byte).bind fun _ => quiet_pure _).andThen hshifted

theorem writes_bitScan (reverse : Bool) (w : Width) (dst : Gpr) (src : Rm) :
    Writes (.gpr dst) next (bitScan reverse w dst src next) := by
  refine (quiet_readRm src w).andThen fun v => (quiet_modifyFlags _).andThen fun _ => ?_
  split
  · exact writes_writeReg w _ (List.mem_singleton_self dst)
  · exact (quiet_pure ()).writes

theorem writes_cmov (cond : Cond) (w : Width) (dst : Gpr) (src : Rm) :
    Writes (.gpr dst) next (cmov cond w dst src next) := by
  refine (quiet_readRm src w).andThen fun v => quiet_get.andThen fun m => ?_
  split
  · exact writes_writeReg w v (List.mem_singleton_self dst)
  · exact (quiet_readReg dst w).andThen fun _ => writes_writeReg w _ (List.mem_singleton_self dst)

theorem writes_cmpxchg (lock : Bool) (w : Width) (dst : Rm) (src : Gpr) :
    Writes (Decoded.cmpxchg lock w dst src).footprint next (cmpxchg w dst src next) := by
  refine (quiet_readRm dst w).andThen fun current => (quiet_readReg .rax w).andThen fun expected =>
    (quiet_setFlags _).andThen fun _ => ?_
  split
  · refine (quiet_readReg src w).andThen fun v => (writes_writeRm w dst v).mono ?_ ?_ rfl
    · exact fun g hg => List.mem_cons_of_mem _ hg
    · exact fun x hx => hx
  · exact writes_writeReg w current List.mem_cons_self

theorem writes_movs (double : Bool) (dst src : Xm) :
    Writes (Decoded.movs double dst src).footprint next (movs double dst src next) := by
  refine (quiet_readLane src double).andThen fun v => ?_
  cases dst with
  | reg d =>
    cases src with
    | reg s => exact writes_writeLane double v (List.mem_singleton_self d)
    | mem m => exact writes_writeXmm v (List.mem_singleton_self d)
  | mem m => exact writes_store v rfl

theorem writes_sse (op : SseOp) (double : Bool) (dst : Xmm) (src : Xm) :
    Writes (.xmm dst) next (sse op double dst src next) :=
  (quiet_readLane _ double).andThen fun _ => (quiet_readLane src double).andThen fun _ =>
    writes_writeLane double _ (List.mem_singleton_self dst)

theorem quiet_ucomis (double : Bool) (a : Xmm) (b : Xm) : Quiet (ucomis double a b next) :=
  (quiet_readLane _ double).bind fun _ => (quiet_readLane b double).bind fun _ => quiet_setFlags _

theorem writes_packed (op : PackedOp) (dst : Xmm) (src : Xm) :
    Writes (.xmm dst) next (packed op dst src next) :=
  (quiet_read128 src).andThen fun _ => writes_setXmm (List.mem_singleton_self dst)

/-- Unless it transfers control, an instruction changes nothing but what is in its footprint. -/
theorem writes_execute {i : Decoded} (h : i.footprint.leaves = false) :
    Writes i.footprint next (execute i next) := by
  cases i with
  | mov w dst src => exact (quiet_readSource src w).andThen fun v => writes_writeRm w dst v
  | movzx w dst v src | movsx w dst v src =>
    exact (quiet_readRm src v).andThen fun _ => writes_writeReg w _ (List.mem_singleton_self dst)
  | lea w dst src =>
    exact (quiet_address src).andThen fun _ => writes_writeReg w _ (List.mem_singleton_self dst)
  | alu op w dst src => exact writes_alu op w dst src
  | test w a b => exact (quiet_test w a b).writes
  | unary op w x =>
    cases op with
    | not => exact writes_not w x
    | neg => exact writes_neg w x
    | mul => exact writes_wideningMul false w x
    | imul => exact writes_wideningMul true w x
    | div => exact writes_divide false w x
    | idiv => exact writes_divide true w x
  | imul w dst src factor =>
    cases factor with
    | none =>
      exact (quiet_readReg dst w).andThen fun a => (quiet_readRm src w).andThen fun b =>
        writes_imul w dst a b
    | some factor => exact (quiet_readRm src w).andThen fun a => writes_imul w dst a _
  | cdq | cqo => exact writes_setReg (List.mem_singleton_self _)
  | shift op w dst count => exact writes_shift op w dst count
  | bitScan reverse w dst src => exact writes_bitScan reverse w dst src
  | setcc cond dst => exact quiet_get.andThen fun _ => writes_writeRm .byte dst _
  | cmov cond w dst src => exact writes_cmov cond w dst src
  | nop | pause | mfence => exact (quiet_pure ()).writes
  | int3 | ud2 => exact (quiet_get.bind fun _ => quiet_throw _).writes
  | movs double dst src => exact writes_movs double dst src
  | movap double dst src =>
    exact (quiet_read128 src).andThen fun _ => writes_setXmm (List.mem_singleton_self dst)
  | sse op double dst src => exact writes_sse op double dst src
  | ucomis double a b => exact (quiet_ucomis double a b).writes
  | packed op double dst src => exact writes_packed op dst src
  | cvtFromInt double w dst src =>
    exact (quiet_readRm src w).andThen fun _ =>
      writes_writeLane double _ (List.mem_singleton_self dst)
  | cvtToInt double w dst src =>
    exact (quiet_readLane src double).andThen fun _ =>
      writes_writeReg w _ (List.mem_singleton_self dst)
  | cvtFloat toDouble dst src =>
    exact (quiet_readLane src _).andThen fun _ =>
      writes_writeLane toDouble _ (List.mem_singleton_self dst)
  | movToXmm w dst src =>
    exact (quiet_readRm src w).andThen fun _ => writes_writeXmm _ (List.mem_singleton_self dst)
  | movFromXmm w dst src => exact quiet_get.andThen fun _ => writes_writeRm w dst _
  | cmpxchg lock w dst src => exact writes_cmpxchg lock w dst src
  | jcc | jmp | call | ret | push | pop => cases h

end MachineCode.Machine
