import MachineCode.Proofs.Execution.Moving
import MachineCode.Proofs.Execution.Trapping

/-! Accesses to memory that may fault. Of the instructions that read or write a value, the one that
is recorded is the one that faults; where it does not, the value gets to where it belongs. What is
stored may belong to the image: no code is executed behind the store. -/
namespace MachineCode

open X64 Lower Machine

/-! ### What an access leaves behind -/

/-- A number stands in memory, and nothing else has changed but the scratch register. -/
structure Machine.Puts (a : Word) (n : Nat) (v : Word) (s c : Machine) : Prop where
  value : c.memory.readWord a n = v.toNat % 256 ^ n
  keeps : s.Keeps (· = scratch) (fun _ => False) (fun b => (b - a).toNat < n) c

/-- An operand has received a value, in a register as a whole. Nothing else has changed but the
scratch register. -/
structure Site.Obtains (S : Site) (frame : Frame) (dst : Operand) (v : Word)
    (s c : Machine) : Prop where
  gpr : ∀ g, gpr? dst = some g → c.reg g = v
  xmm : ∀ x, xmm? dst = some x → c.xmmReg x = v.setWidth 128
  memory : ∀ l, place? frame dst = some l →
    c.memory.readWord (S.place s l) dst.kind.size = v.toNat % 256 ^ dst.kind.size
  keeps : s.Keeps (fun g => g = scratch ∨ gpr? dst = some g) (fun x => xmm? dst = some x)
    (fun a => ∃ l, place? frame dst = some l ∧ (a - S.place s l).toNat < dst.kind.size) c

section

variable {S : Site} {frame : Frame} {dst : Operand} {s s' c : Machine} {a v v' : Word} {n : Nat}

theorem Kind.size_le_memory (kind : Kind) : kind.size ≤ 2 ^ 64 := by
  cases kind <;> decide

/-- A store, with the scratch register overwritten before. -/
theorem Machine.puts_stored (hn : n ≤ 2 ^ 64) (hv : v'.toNat % 256 ^ n = v.toNat % 256 ^ n) :
    s.Puts a n v (s.stored a n v') :=
  ⟨(Memory.readWord_writeWord _ _ hn v').trans hv, keeps_stored (fun _ hb => hb) v'⟩

/-- Before a store the scratch register may change. -/
theorem Machine.Puts.after (h : s'.Puts a n v c)
    (hk : s.Keeps (· = scratch) (fun _ => False) (fun _ => False) s') :
    s.Puts a n v c :=
  ⟨h.value, (hk.mono (fun _ => id) (fun _ => id) fun _ => False.elim).trans h.keeps⟩

namespace Site

theorem obtains_setReg {g : Gpr} (hg : gpr? dst = some g) (v : Word) :
    S.Obtains frame dst v s (s.setReg g v) where
  gpr g' hg' := by
    cases hg.symm.trans hg'
    exact reg_setReg_self s g v
  xmm x hx := by
    rw [gpr?_of_xmm? hx] at hg
    cases hg
  memory l hl := by
    rw [place?_of_gpr? hg] at hl
    cases hl
  keeps := keeps_setReg (.inr hg) v

theorem obtains_setXmm {x : Xmm} (hx : xmm? dst = some x) (v : Word) :
    S.Obtains frame dst v s (s.setXmm x (v.setWidth 128)) where
  gpr g hg := by
    rw [gpr?_of_xmm? hx] at hg
    cases hg
  xmm x' hx' := by
    cases hx.symm.trans hx'
    exact xmmReg_setXmm_self s x _
  memory l hl := by
    rw [place?_of_xmm? hx] at hl
    cases hl
  keeps := keeps_setXmm hx _

theorem obtains_of_puts {l : Location} (hl : place? frame dst = some l)
    (h : s.Puts (S.place s l) dst.kind.size v c) : S.Obtains frame dst v s c where
  gpr g hg := by
    rw [gpr?_of_place? hl] at hg
    cases hg
  xmm x hx := by
    rw [xmm?_of_place? hl] at hx
    cases hx
  memory l' hl' := by
    cases hl.symm.trans hl'
    exact h.value
  keeps := h.keeps.mono (fun _ => .inl) (fun _ => False.elim) fun _ hb => ⟨l, hl, hb⟩

/-- Before the operand receives its value, the scratch register may change, if the place is not
computed from it. -/
theorem Obtains.after (h : S.Obtains frame dst v s' c)
    (hk : s.Keeps (· = scratch) (fun _ => False) (fun _ => False) s')
    (hscratch : ¬ dst.AddressedBy frame scratch) :
    S.Obtains frame dst v s c := by
  have hplace : ∀ l, place? frame dst = some l → S.place s' l = S.place s l := fun l hl =>
    hk.place S fun g hg heq => hscratch ⟨l, hl, heq ▸ hg⟩
  refine ⟨h.gpr, h.xmm, fun l hl => hplace l hl ▸ h.memory l hl, ?_⟩
  refine (hk.mono (fun _ => .inl) (fun _ => False.elim) fun _ => False.elim).trans
    (h.keeps.mono (fun _ => id) (fun _ => id) ?_)
  rintro b ⟨l, hl, hb⟩
  exact ⟨l, hl, hplace l hl ▸ hb⟩

end Site

end

end MachineCode

namespace MachineCode.Lower

open X64 Machine Chunk

variable {α : Type} {S : Site} {C : Context} {l : Location} {kind : Kind}
  {A B : Machine → Prop} {Q R : Assertion}

/-- The step accesses `n` bytes of a place, and its result is where the instruction stands that does
it. -/
def Touches (S : Site) (C : Context) (l : Location) (n : Nat) (x : Lower Nat) (A : Machine → Prop)
    (Q : Assertion) : Prop :=
  Points S C x fun pc pre new _ => S.Traps A (fun c => c.segv? (S.place c l) n) Q pc pre new

namespace Touches

variable {n : Nat} {x : Lower Nat}

theorem mono (h : Touches S C l n x B Q)
    (hA : ∀ s, A s → B s ∧ ∀ c, Q s c → R s c) : Touches S C l n x A R :=
  Points.mono h fun _ _ _ _ _ _ h => h.mono fun s _ hs => ⟨(hA s hs).1, rfl, (hA s hs).2⟩

/-- Code that leaves the place where it is comes first. -/
theorem after {y : Lower α} {f : α → Lower Nat} (hy : Computes S C y A fun _ => R)
    (hf : ∀ a, Touches S C l n (f a) B Q) {T : Assertion}
    (hR : ∀ s c, A s → R s c → B c ∧ S.place c l = S.place s l ∧
      c.protectedRanges = s.protectedRanges ∧ ∀ c', Q c c' → T s c') :
    Touches S C l n (y >>= f) A T := by
  refine (Lays.points hy hf).mono ?_
  rintro pc pre _ post final - ⟨a, new₁, new₂, rfl, hlead, htrap⟩
  refine hlead.traps htrap (fun s hs => ⟨rfl, hs⟩) (fun s c hs _ hc => ?_)
    (fun _ _ _ _ _ => False.elim)
  obtain ⟨hb, hplace, hranges, hQ⟩ := hR s c hs hc
  refine ⟨hb, ?_, hQ⟩
  rw [hplace, segv?, segv?, faultsAt, faultsAt, hranges]

/-- From where the place can be accessed, the code leads to its end. -/
theorem passes (h : Touches S C l n x B Q) (hA : ∀ s, A s → B s ∧ CanAccess S l n s) :
    Lays S C (discard x) fun _ pre new _ => S.Passes A Q pre new :=
  h.lays.mono fun _ _ _ _ _ _ ⟨_, h⟩ => h.to_passes fun s hs =>
    ⟨(hA s hs).1, segv?_eq_none.mpr (hA s hs).2⟩

theorem of_fails (h : Fails x) : Touches S C l n x A Q := points_of_fails h

end Touches

/-! ### Registers -/

theorem touches_loadGpr {dst : Gpr} (hl : l.Valid) (hfixed : l.Fixed) :
    Touches S C l kind.size (loadGpr kind dst l) (fun _ => True) fun s c =>
      c = s.setReg dst (kind.read (s.memory.readWord (S.place s l) kind.size)) :=
  points_emitAt hl hfixed (mem?_loadInstr kind dst) (withMem_loadInstr kind dst)
    (fun _ _ _ _ ha hfaults => refuses_loadInstr kind ha hfaults)
    fun _ _ _ _ ha hfaults => executes_loadInstr kind ha hfaults

theorem touches_storeGpr {src : Gpr} (hl : l.Valid) (hfixed : l.Fixed) :
    Touches S C l kind.size (storeGpr kind src l) (fun _ => True) fun s c =>
      s.Puts (S.place s l) kind.size (s.reg src) c := by
  refine points_emitAt hl hfixed (mem?_storeInstr kind src) (withMem_storeInstr kind src)
    (fun _ _ _ _ ha hfaults => refuses_storeInstr kind src ha hfaults)
    fun s _ _ _ ha hfaults => (executes_storeInstr kind src ha hfaults).mono ?_
  rintro _ _ ⟨v, hv, rfl⟩
  exact puts_stored kind.size_le_memory hv

theorem touches_loadXmm {dst : Xmm} (hl : l.Valid) (hfixed : l.Fixed) :
    Touches S C l kind.size (loadXmm kind dst l) (fun _ => True) fun s c =>
      c = s.setXmm dst ((kind.read (s.memory.readWord (S.place s l) kind.size)).setWidth 128) := by
  unfold loadXmm
  split
  · rename_i hkind
    rw [← bytes_laneWidth hkind]
    refine points_emitAt hl hfixed (fun _ => rfl) (fun _ _ => rfl)
      (fun _ _ _ _ ha hfaults => refuses_movsLoad ha hfaults)
      fun s _ _ _ ha hfaults => (executes_movsLoad (readsLane_mem ha hfaults)).mono fun _ c hc => ?_
    rw [hc, read_isFloating hkind]
    rfl
  · exact .of_fails (fails_unhandled _)

theorem touches_storeXmm {src : Xmm} (hl : l.Valid) (hfixed : l.Fixed) :
    Touches S C l kind.size (storeXmm kind src l) (fun _ => True) fun s c =>
      s.Puts (S.place s l) kind.size ((s.xmmReg src).setWidth 64) c := by
  unfold storeXmm
  split
  · rename_i hkind
    rw [← bytes_laneWidth hkind]
    refine points_emitAt hl hfixed (fun _ => rfl) (fun _ _ => rfl)
      (fun _ _ _ _ ha hfaults => refuses_movsStore ha hfaults)
      fun s _ _ _ ha hfaults => (executes_movsStore ha hfaults).mono fun _ c hc => ?_
    rw [hc]
    refine puts_stored (by rw [bytes_laneWidth hkind]; exact kind.size_le_memory) ?_
    rw [toNat_low, Nat.mod_mod]
  · exact .of_fails (fails_unhandled _)

theorem touches_load {r : Register} (hl : l.Valid) (hfixed : l.Fixed) :
    Touches S C l kind.size (load kind r l) (fun _ => True) fun s c =>
      S.Obtains C.frame (.reg r kind)
        (kind.read (s.memory.readWord (S.place s l) kind.size)) s c := by
  unfold load
  split
  · rename_i g hg
    have hdst : gpr? (.reg r kind) = some g := hg
    refine (touches_loadGpr hl hfixed).mono fun s _ => ⟨trivial, ?_⟩
    rintro _ rfl
    exact Site.obtains_setReg hdst _
  · rename_i x _ hx
    have hdst : xmm? (.reg r kind) = some x := hx
    refine (touches_loadXmm hl hfixed).mono fun s _ => ⟨trivial, ?_⟩
    rintro _ rfl
    exact Site.obtains_setXmm hdst _
  · exact .of_fails (fails_unhandled _)

/-- The value of the operand stands at the place. -/
def Stored (S : Site) (frame : Frame) (value : Operand) (l : Location) : Assertion := fun s c =>
  ∃ v, S.value? frame s value = some v ∧ s.Puts (S.place s l) value.kind.size v c

theorem touches_store {r : Register} (hl : l.Valid) (hfixed : l.Fixed) :
    Touches S C l kind.size (store kind r l) (fun _ => True)
      (Stored S C.frame (.reg r kind) l) := by
  unfold store
  split
  · rename_i hg
    exact (touches_storeGpr hl hfixed).mono fun s _ =>
      ⟨trivial, fun _ hc => ⟨_, Site.value?_gpr hg, hc⟩⟩
  · rename_i hx
    exact (touches_storeXmm hl hfixed).mono fun s _ =>
      ⟨trivial, fun _ hc => ⟨_, Site.value?_xmm hx, hc⟩⟩
  · exact .of_fails (fails_unhandled _)

/-! ### Constants -/

/-- A value goes through the scratch register, from which the place is not computed. -/
theorem touches_throughScratch (kind : Kind) {x : Lower α} {f : Machine → Word → Prop}
    (hl : l.Valid) (hfixed : l.Fixed) (hscratch : l.mem.uses scratch = false)
    (hx : Computes S C x A fun _ s c => ∃ v, f s v ∧ c = s.setReg scratch v) :
    Touches S C l kind.size (x >>= fun _ => storeGpr kind scratch l) A fun s c =>
      ∃ v, f s v ∧ s.Puts (S.place s l) kind.size v c := by
  refine .after hx (fun _ => touches_storeGpr hl hfixed) ?_
  rintro s _ - ⟨v, hv, rfl⟩
  have hkeeps : s.Keeps (· = scratch) (fun _ => False) (fun _ => False) (s.setReg scratch v) :=
    keeps_setReg (G := (· = scratch)) rfl v
  have hplace : S.place (s.setReg scratch v) l = S.place s l := hkeeps.place S fun g hg h => by
    rw [h, hscratch] at hg
    cases hg
  refine ⟨trivial, hplace, rfl, fun c hc => ⟨v, hv, ?_⟩⟩
  rw [hplace, reg_setReg_self] at hc
  exact hc.after hkeeps

theorem touches_storeImm {w : Width} {imm : Int32} {v : Word} (hl : l.Valid) (hfixed : l.Fixed)
    (hv : (imm.toInt % (2 ^ w.bits : Nat)).toNat = v.toNat % 256 ^ w.bytes) :
    Touches S C l w.bytes (emitAt l (.storeImm w · imm)) (fun _ => True) fun s c =>
      s.Puts (S.place s l) w.bytes v c := by
  refine points_emitAt (i := (.storeImm w · imm)) hl hfixed (fun _ => rfl) (fun _ _ => rfl)
    (fun _ _ _ _ ha hfaults => refuses_store (readsSource_imm _ w) ha hfaults)
    fun s _ _ _ ha hfaults =>
      (executes_store (readsSource_imm _ w) ha hfaults).mono fun _ c hc => ?_
  rw [hc]
  exact puts_stored (by cases w <;> decide) ((toNat_signedAt w _).trans hv)

/-- The store of a constant, to a place that is not computed from the scratch register if the store
needs it. -/
theorem touches_constantToMemory {c : Constant} (hl : l.Valid) (hfixed : l.Fixed)
    (hscratch : needsScratch c = true → l.mem.uses scratch = false) :
    Touches S C l c.kind.size (constantToMemory c c.kind l) S.Readable
      (Stored S C.frame (.const c) l) := by
  unfold constantToMemory
  split
  · rename_i o ho
    have hstore := touches_throughScratch (S := S) (C := C) .object hl hfixed
      (hscratch (needsScratch_of_object ho))
      (computes_objectToRegister o scratch)
    rw [size_of_object? ho]
    refine hstore.mono fun s hs => ⟨hs, ?_⟩
    rintro _ ⟨a, ha, hputs⟩
    refine ⟨a, (value?_object ho C.frame s).trans ha, ?_⟩
    rwa [Operand.kind, size_of_object? ho]
  · rename_i ho
    have hvalue := fun s => value?_bits (S := S) ho C.frame s
    split
    · rename_i hsize
      split
      · rename_i imm himm
        have hstore :=
          touches_storeImm (S := S) (C := C) (w := .qword) (v := c.bits.toBitVec) hl hfixed
          ((toNat_toInt64 himm).trans (Nat.mod_eq_of_lt c.bits.toBitVec.isLt).symm)
        have hstore : Touches S C l 8 _ _ _ := hstore
        rw [hsize]
        refine hstore.mono fun s _ => ⟨trivial, fun _ hputs => ⟨_, hvalue s, ?_⟩⟩
        rwa [Operand.kind, hsize]
      · rename_i himm
        have hstore := touches_throughScratch (S := S) (C := C)
          (f := fun _ v => v = c.bits.toBitVec) .long hl hfixed
          (hscratch (needsScratch_of_wide ho hsize himm))
          ((computes_movImm (A := S.Readable) true scratch c.bits).mono fun s _ hs => ⟨hs, ?_⟩)
        · rw [hsize]
          refine hstore.mono fun s hs => ⟨hs, ?_⟩
          rintro _ ⟨v, rfl, hputs⟩
          refine ⟨_, hvalue s, ?_⟩
          rwa [Operand.kind, hsize]
        · rintro _ _ rfl
          exact ⟨_, low_qword _, rfl⟩
    · rename_i hsize
      obtain ⟨hwidth, hle⟩ : (Width.ofBytes c.kind.size).bytes = c.kind.size ∧
          (Width.ofBytes c.kind.size).bits ≤ 32 := by
        revert hsize
        cases c.kind <;> simp [Kind.size, Width.ofBytes, Width.bytes, Width.bits]
      have hstore := touches_storeImm (S := S) (C := C) hl hfixed (toNat_toInt32 c hle)
      rw [hwidth] at hstore
      exact hstore.mono fun s _ => ⟨trivial, fun _ hputs => ⟨_, hvalue s, hputs⟩⟩

/-! ### Values -/

/-- A register is moved to where the result belongs. -/
theorem passes_movRegister {g : Gpr} {dst : Operand} :
    Lays S C (mov (.reg g.register kind) dst false)
    fun _ pre new _ => S.Passes (S.Accessible C.frame · dst) (fun _ _ => True) pre new := by
  have hmemory :
      Lays S C (location dst >>= fun l => discard (store dst.kind g.register l)) fun _ pre new _ =>
      S.Passes (S.Accessible C.frame · dst) (fun _ _ => True) pre new :=
    (finds_location dst).lays_bind fun l hl =>
      ((touches_store hl.2 (fixed_of_place? hl.1)).mono fun _ _ =>
        ⟨trivial, fun _ _ => trivial⟩).passes fun _ hs =>
        ⟨trivial, hs l hl.1⟩
  cases dst with
  | const c => exact lays_of_fails (fails_unhandled _)
  | reg r kind' =>
    have hcomputes : Computes S C (registerToRegister g.register r kind)
        (S.Accessible C.frame · (.reg r kind')) fun _ _ _ => True := by
      unfold registerToRegister
      split
      · exact runs_pure () fun _ _ _ _ => trivial
      · rw [Gpr.ofRegister?_register]
        split
        · rename_i g' r' _ _
          have hmove :
              Computes S C (emit (.mov kind.isWord r' g')) (S.Accessible C.frame · (.reg r kind'))
              fun _ s c => c.memory = s.memory :=
            computes_emit (Instr.encodable_of_none rfl)
              (fun s _ _ => (executes_mov (readsRm_reg g' (.ofWide kind.isWord)).source).mono
                fun _ _ h => by rw [h]; rfl)
              fun _ _ => id
          exact hmove.mono fun _ _ hs => ⟨hs, fun _ _ _ => trivial⟩
        · exact computes_of_fails (fails_unhandled _)
        · exact computes_of_fails (fails_unhandled _)
    exact Lays.mono hcomputes fun _ _ _ _ _ _ h => h.passes
  | stack slot kind' =>
    unfold mov
    exact hmemory
  | addr a =>
    unfold mov
    split
    · exact lays_of_fails (fails_unhandled _)
    · exact hmemory

end MachineCode.Lower
