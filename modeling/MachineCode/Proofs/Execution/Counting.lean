import MachineCode.Proofs.Execution.Installations
import MachineCode.Proofs.Execution.Scalars

/-! How many scalar operations are executed. The machine records the instructions that it executes.
Of code without branches it executes each instruction once. -/
namespace MachineCode

open X64 Lower Chunk

/-! ### Instructions -/

namespace X64

/-- Scalar arithmetic. -/
def Instr.isScalar : Instr → Bool
  | .sse .. => true
  | _ => false

/-- Scalar arithmetic, and what brings operands to floating-point registers. -/
def Instr.isFloating : Instr → Bool
  | .movsLoad .. | .movap .. | .packed .. | .sse .. => true
  | _ => false

/-- Scalar arithmetic, as it is executed. -/
def Insn.isScalar (x : Insn) : Bool :=
  match x.op with
  | .sse .. => true
  | _ => false

end X64

namespace Machine

variable {α β : Type} {next : Word}

/-- Where the computation succeeds, memory, the instruction pointer and the record of instructions
are as before. -/
def Rests (x : MachineStep α) : Prop :=
  ∀ m a m', x m = .ok a m' → m'.executed = m.executed ∧ m'.rip = m.rip ∧ m'.memory = m.memory

theorem rests_pure (a : α) : Rests (pure a) := by
  rintro m _ _ ⟨⟩
  exact ⟨rfl, rfl, rfl⟩

theorem rests_get : Rests get := by
  rintro m _ _ ⟨⟩
  exact ⟨rfl, rfl, rfl⟩

theorem Rests.bind {x : MachineStep α} {f : α → MachineStep β} (hx : Rests x)
    (hf : ∀ a, Rests (f a)) : Rests (x >>= f) := by
  intro m b m'' hrun
  obtain ⟨a, m', hrun, hrun'⟩ := Step.bind_eq_ok.mp hrun
  obtain ⟨hexecuted, hrip, hmemory⟩ := hx m a m' hrun
  obtain ⟨hexecuted', hrip', hmemory'⟩ := hf a m' b m'' hrun'
  exact ⟨hexecuted'.trans hexecuted, hrip'.trans hrip, hmemory'.trans hmemory⟩

theorem rests_modify {f : Machine → Machine}
    (h : ∀ m, (f m).executed = m.executed ∧ (f m).rip = m.rip ∧ (f m).memory = m.memory) :
    Rests (modify f) := by
  rintro m _ _ ⟨⟩
  exact h m

theorem rests_setXmm (x : Xmm) (f : Machine → BitVec 128) :
    Rests (modify fun m => m.setXmm x (f m)) :=
  rests_modify fun _ => ⟨rfl, rfl, rfl⟩

theorem rests_loadBytes (a : Word) (n : Nat) : Rests (loadBytes a n) := by
  have haccess : Rests (access a n false) := by
    intro m _ m' hrun
    unfold access at hrun
    rw [Step.get_bind] at hrun
    split at hrun
    · cases hrun
    · cases hrun
      exact ⟨rfl, rfl, rfl⟩
  exact haccess.bind fun _ => rests_get.bind fun _ => rests_pure _

theorem rests_address (m : Mem) : Rests (address m next) := rests_get.bind fun _ => rests_pure _

theorem rests_readLane (x : Xm) (double : Bool) : Rests (readLane x double next) := by
  cases x with
  | reg x => exact rests_get.bind fun _ => rests_pure _
  | mem m => exact (rests_address m).bind fun _ => rests_loadBytes _ _

theorem rests_read128 (x : Xm) : Rests (read128 x next) := by
  cases x with
  | reg x => exact rests_get.bind fun _ => rests_pure _
  | mem m =>
    exact (rests_address m).bind fun _ => (rests_loadBytes _ _).bind fun _ =>
      (rests_loadBytes _ _).bind fun _ => rests_pure _

theorem rests_execute {i : Instr} (h : i.isFloating = true) : Rests (execute i.decoded next) := by
  cases i with
  | movsLoad double dst src => exact (rests_readLane _ _).bind fun _ => rests_setXmm _ _
  | movap double dst src => exact (rests_read128 _).bind fun _ => rests_setXmm _ _
  | packed op double dst src => exact (rests_read128 _).bind fun _ => rests_setXmm _ _
  | sse op double dst src =>
    exact (rests_readLane _ _).bind fun _ => (rests_readLane _ _).bind fun _ => rests_setXmm _ _
  | _ => cases h

/-- The number of scalar operations that have been executed. -/
def scalarCount (machine : Machine) : Nat := machine.executed.countP (·.2.isScalar)

end Machine

/-! ### Code -/

namespace Chunk

/-- A chunk without branches and stores: scalar arithmetic, or what brings its operands to their
registers. -/
def isFloating : Chunk → Bool
  | .instr i _ => i.isFloating
  | _ => false

def isScalar : Chunk → Bool
  | .instr i _ => i.isScalar
  | _ => false

theorem Reads.of_isFloating {c : Chunk} {m : Method} {r : Resolver} {env : Label → Option Nat}
    {p : Nat} {j : Decoded} (h : c.Reads m r env p j) (hc : c.isFloating = true) :
    ∃ i : Instr, i.isFloating = true ∧ i.isScalar = c.isScalar ∧ j = i.decoded := by
  cases h with
  | plain i => exact ⟨i, hc, rfl, rfl⟩
  | @data i offset disp hi hdisp =>
    refine ⟨i.withMem (.rip disp), ?_, ?_, rfl⟩ <;>
      cases i with
      | movsLoad double dst src => rfl
      | movap double dst src => cases hi
      | packed op double dst src | sse op double dst src =>
        cases src with
        | reg x => cases hi
        | mem m => rfl
      | _ => cases hc
  | _ => cases hc

end Chunk

theorem X64.Instr.isScalar_decoded {i : Instr} (h : i.isFloating = true) :
    i.decoded.insn.isScalar = i.isScalar := by
  cases i with
  | movsLoad | movap | packed | sse => rfl
  | _ => cases h

/-- These chunks, and so many scalar operations among them. -/
structure CountsScalars (n : Nat) (new : List Chunk) : Prop where
  floating : ∀ c ∈ new, c.isFloating = true ∧ 0 < c.size
  count : new.countP (·.isScalar) = n

theorem CountsScalars.append {m n : Nat} {new new' : List Chunk} (h : CountsScalars m new)
    (h' : CountsScalars n new') :
    CountsScalars (m + n) (new ++ new') where
  floating c hc := (List.mem_append.mp hc).elim (h.floating c) (h'.floating c)
  count := by rw [List.countP_append, h.count, h'.count]

theorem countsScalars_nil : CountsScalars 0 [] := ⟨fun _ h => absurd h List.not_mem_nil, rfl⟩

theorem countsScalars_instr {i : Instr} {link : Option Link} {n : Nat} (hi : i.isFloating = true)
    (hencodable : i.Encodable) (hn : n = if i.isScalar then 1 else 0) :
    CountsScalars n [.instr i link] where
  floating c hc := by
    rw [List.mem_singleton.mp hc, size_instr]
    exact ⟨hi, Instr.length_pos hencodable⟩
  count := by
    rw [hn, List.countP_singleton]
    rfl

/-- One step through such code. -/
theorem Site.Hosts.step_floating {S : Site} {pre post : List Chunk} {c : Chunk} {final : Draft}
    {machine machine' : Machine} (hhosts : S.Hosts (pre ++ c :: post) final)
    (hc : c.isFloating = true) (hloaded : machine.Loaded S.base S.image)
    (hrip : machine.rip = S.addressOf (extent pre))
    (hstep : Machine.step machine = .ok () machine') :
    machine'.Loaded S.base S.image ∧ machine'.rip = S.addressOf (extent (pre ++ [c])) ∧
      machine'.scalarCount = machine.scalarCount + if c.isScalar then 1 else 0 := by
  obtain ⟨m, j, -, hreads, hexecute⟩ := hhosts.step (by cases c <;> first | rfl | cases hc)
    (by cases c <;> first | rfl | cases hc)
      (⟨hloaded, hrip, trivial⟩ : S.Stands (extent pre) (fun _ => True) machine)
  obtain ⟨i, hi, hscalar, rfl⟩ := hreads.of_isFloating hc
  obtain ⟨hexecuted, hnext, hmemory⟩ := Machine.rests_execute hi _ _ _ (hexecute.symm.trans hstep)
  refine ⟨hloaded.congr fun a => by rw [hmemory]; rfl, ?_, ?_⟩
  · rw [hnext]
    change machine.rip + _ = _
    rw [hrip, Site.addressOf_add]
    simp
  · rw [Machine.scalarCount, hexecuted]
    change (machine.executed.push _).countP _ = _
    rw [Array.countP_push, Instr.isScalar_decoded hi, hscalar]
    rfl

/-- On the way to the end of such code each of its instructions is executed once. -/
theorem Site.Hosts.scalarCount_eq {S : Site} {pre new post : List Chunk} {final : Draft}
    {machine machine' : Machine} {n : Nat} (hhosts : S.Hosts (pre ++ (new ++ post)) final)
    (hnew : CountsScalars n new) (hloaded : machine.Loaded S.base S.image)
    (hrip : machine.rip = S.addressOf (extent pre)) (hfits : S.image.size < 2 ^ 64)
    (hrun : machine.RunsTo (S.addressOf (extent (pre ++ new))) machine') :
    machine'.scalarCount = machine.scalarCount + n := by
  have hle := hhosts.extent_le
  induction new generalizing pre machine n with
  | nil =>
    cases hnew.count
    cases hrun with
    | done => rfl
    | next hne => exact absurd (by rw [hrip, List.append_nil]) hne
  | cons c new ih =>
    obtain ⟨hfloating, hcount⟩ := hnew
    obtain ⟨hc, hpos⟩ := hfloating c (List.mem_cons_self ..)
    cases hrun with
    | done hend =>
      -- The code is not empty, so that control is not at its end yet.
      have := Site.addressOf_inj (S := S) (by simp at hle; omega) (by omega) (hrip.symm.trans hend)
      simp at this
      omega
    | next hne hstep hrest =>
      obtain ⟨hloaded', hrip', hcount'⟩ := Site.Hosts.step_floating hhosts hc hloaded hrip hstep
      have hhosts' : S.Hosts ((pre ++ [c]) ++ (new ++ post)) final := by simpa using hhosts
      rw [ih hhosts' ⟨fun c' hc' => hfloating c' (List.mem_cons_of_mem _ hc'), rfl⟩ hloaded' hrip'
        (by simpa using hrest)
        (by simpa using hle), hcount', ← hcount, List.countP_cons, Nat.add_assoc,
        Nat.add_comm (new.countP _)]

/-! ### Lowering -/

namespace Lower

variable {α β : Type} {S : Site} {C : Context} {n : Nat}

/-- The code of the step is of this kind, with so many scalar operations. -/
def Counts (S : Site) (C : Context) (x : Lower α) (n : Nat) : Prop :=
  Lays S C x fun _ _ new _ => CountsScalars n new

theorem Counts.bind {m : Nat} {x : Lower α} {f : α → Lower β} (hx : Counts S C x m)
    (hf : ∀ a, Counts S C (f a) n) :
    Counts S C (x >>= f) (m + n) :=
  (Lays.bind hx hf).mono fun _ _ _ _ _ _ ⟨_, _, _, hnew, h, h'⟩ => hnew ▸ h.append h'

theorem counts_finds {p : α → Prop} {x : Lower α} {f : α → Lower β} (hx : Finds C x p)
    (hf : ∀ a, p a → Counts S C (f a) n) : Counts S C (x >>= f) n := hx.lays_bind hf

theorem Counts.discard {x : Lower α} (hx : Counts S C x n) : Counts S C (discard x) n :=
  (Lays.discard hx).mono fun _ _ _ _ _ _ ⟨_, h⟩ => h

theorem counts_pure (a : α) : Counts S C (pure a) 0 :=
  (finds_pure (p := fun _ => True) trivial).lays.mono fun _ _ _ _ _ _ h => h.1 ▸ countsScalars_nil

theorem counts_of_fails {x : Lower α} (hx : Fails x) : Counts S C x n := lays_of_fails hx

theorem counts_emit {i : Instr} (hi : i.isFloating = true) (hmem : i.mem? = none)
    (hn : n = if i.isScalar then 1 else 0) :
    Counts S C (emit i) n :=
  (lays_emit (Instr.encodable_of_none hmem)).mono fun _ _ _ _ _ _ h =>
    h ▸ countsScalars_instr hi (Instr.encodable_of_none hmem) hn

theorem counts_emitAt {l : Location} {i : Mem → Instr} (hl : l.Valid)
    (hmem : ∀ m, (i m).mem? = some m) (hi : ∀ m, (i m).isFloating = true)
    (hn : ∀ m, n = if (i m).isScalar then 1 else 0) : Counts S C (emitAt l i) n :=
  (lays_emitAt hl hmem).mono fun _ _ _ _ _ _ h =>
    h.1 ▸ countsScalars_instr (hi _) (Instr.encodable_of_some (hmem _) hl.encodable) (hn _)

theorem counts_constantToXmm {c : Constant} {x : Xmm} : Counts S C (constantToXmm c x) 0 := by
  have hload : ∀ bytes align, Counts S C (do
      let offset ← onData (·.constant bytes align)
      discard (emitAt (.ofData offset) (.movsLoad c.kind.isDouble x))) 0 := fun bytes align =>
    (Lays.bind (lays_constant bytes align) fun offset =>
      Counts.discard (counts_emitAt (n := 0) (valid_ofData offset)
      (fun _ => rfl) (fun _ => rfl) fun _ => rfl)).mono fun _ _ _ _ _ _ ⟨_, _, _, hnew, h, h'⟩ => by
        rw [hnew, h.1]
        exact h'
  unfold constantToXmm
  dsimp only
  split
  · exact counts_of_fails (fails_unhandled _)
  · split
    · exact counts_emit rfl rfl rfl
    · have hdouble : ∀ b : Bool, Counts S C (do
          let offset ← onData fun d => if b then d.doubleBits c.bits else d.floatBits c.low32
          discard (emitAt (.ofData offset) (.movsLoad c.kind.isDouble x))) 0 := by
        intro b
        cases b with
        | true => exact hload _ _
        | false => exact hload _ _
      exact hdouble _

/-- A move to a floating-point register. -/
theorem counts_mov {src : Operand} {r : Register} {kind : Kind} {x : Xmm}
    (hx : Xmm.ofRegister? r = some x) :
    Counts S C (mov src (.reg r kind) false) 0 := by
  have hnone : Gpr.ofRegister? r = none := Site.gpr?_of_xmm? (o := .reg r kind) hx
  have hload : ∀ kind l, l.Valid → Counts S C (load kind r l) 0 := by
    intro kind l hl
    rw [load, hnone, hx]
    dsimp only
    unfold loadXmm
    split
    · exact counts_emitAt hl (fun _ => rfl) (fun _ => rfl) fun _ => rfl
    · exact counts_of_fails (fails_unhandled _)
  cases src with
  | reg r' kind' =>
    rw [show mov (.reg r' kind') (.reg r kind) false = registerToRegister r' r kind' from
      by simp [mov, inData]]
    unfold registerToRegister
    split
    · exact counts_pure ()
    · rw [hnone]
      split
      · rename_i h
        cases h
      · rw [hx]
        split
        · exact counts_emit rfl rfl rfl
        · exact counts_of_fails (fails_unhandled _)
      · exact counts_of_fails (fails_unhandled _)
  | const c =>
    rw [show mov (.const c) (.reg r kind) false = constantToRegister c r false from
      by simp [mov, inData], constantToRegister, hx]
    exact counts_constantToXmm
  | stack slot kind' | addr a =>
    unfold mov
    exact counts_finds (finds_location _) fun l hl => (hload _ l hl.2).discard

/-- A constant is brought to the scratch register without arithmetic. -/
theorem counts_applySse {op : SseOp} {double : Bool} {x : Xmm} {o : Operand} :
    Counts S C (applySse op double x o) 1 := by
  unfold applySse
  split
  · exact counts_finds (finds_xmm _) fun y _ => counts_emit rfl rfl rfl
  · rw [toFloatScratch_bind]
    exact (counts_mov (Xmm.ofRegister?_register floatScratch)).bind fun _ => counts_emit rfl rfl rfl
  · exact counts_finds (finds_location o) fun l hl =>
      (counts_emitAt (i := fun m => .sse op double x (.mem m)) hl.2 (fun _ => rfl) (fun _ => rfl)
        fun _ => rfl).discard

theorem counts_floatArith {op : ArithOp} {left right result : Operand} {x : Xmm}
    (hx : xmm? result = some x) :
    Counts S C (floatArith op left right result) 1 := by
  have hmov : ∀ o, Counts S C (mov o result false) 0 := fun o => by
    cases result with
    | reg r kind => exact counts_mov hx
    | stack | const | addr => cases hx
  unfold floatArith
  split
  · exact counts_of_fails (fails_unhandled _)
  · refine counts_finds (finds_xmm result) fun y _ => ?_
    dsimp only
    split
    · split
      · exact counts_applySse
      · exact (counts_emit (n := 0) rfl rfl rfl).bind fun _ => (hmov left).bind fun _ =>
          counts_emit rfl rfl rfl
    · exact (hmov left).bind fun _ => counts_applySse

theorem counts_sqrt {value result : Operand} : Counts S C (sqrt value result) 1 :=
  counts_finds (finds_xmm result) fun _ _ => counts_applySse

end Lower

end MachineCode
