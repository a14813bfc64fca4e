import MachineCode.Proofs.Execution.Placement
import MachineCode.Proofs.Failures.Methods

/-! What the code of a computation changes: its result and the scratch registers, and for a move the
place that it stores to. Code that was put off counts with the operation that has put it off. -/
namespace MachineCode

open X64 Lower Chunk

/-! ### Computations -/

namespace Operation

/-- The operations on values, whose code ends where it goes on. -/
def isComputation : Operation → Bool
  | move .. | arith .. | logic .. | shift .. | negate .. | abs .. | sqrt
    .. | convert .. | compare ..
  | compareToInt .. | condMove .. | lea .. | nullCheck .. | safepoint _ | monitorAddress ..
  | stackAllocate .. | memoryBarrier _ | significantBit .. => true
  | _ => false

/-- Where a computation leaves its result. -/
def result? : Operation → Option Operand
  | move _ result | arith _ _ _ result _ | logic _ _ _ result | shift _ _ _ result | negate _ result
  | abs _ result | sqrt _ result | convert _ _ result | compareToInt _ _ _ result
  | condMove _ _ _ _ result | lea _ result | monitorAddress _ result | stackAllocate _ result
  | significantBit _ _ result => some result
  | _ => none

def isMove : Operation → Bool
  | move .. => true
  | _ => false

def isDivision : Operation → Bool
  | arith op .. => op.isDivision
  | _ => false

/-- The general registers that the code of a computation may change. -/
def Clobbers (op : Operation) (g : Gpr) : Prop :=
  g = scratch ∨ (op.isDivision = true ∧ (g = .rax ∨ g = .rdx)) ∨
    ∃ o, op.result? = some o ∧ gpr? o = some g

/-- The floating-point registers that it may change. -/
def ClobbersXmm (op : Operation) (x : Xmm) : Prop :=
  x = floatScratch ∨ ∃ o, op.result? = some o ∧ xmm? o = some x

/-- The place in memory that a move stores to, with the number of bytes. -/
def StoresAt (frame : Frame) (op : Operation) (l : Location) (n : Nat) : Prop :=
  ∃ src dst, op = move src dst ∧ inData dst = false ∧ place? frame dst = some l ∧
    n = storedSize src dst.kind

/-- Between the two states, the operation has changed nothing but what it may. -/
structure Spares (op : Operation) (frame : Frame) (machine machine' : Machine) : Prop where
  rsp : machine'.reg .rsp = machine.reg .rsp
  gprs : ∀ g, ¬ op.Clobbers g → machine'.reg g = machine.reg g
  xmms : ∀ x, ¬ op.ClobbersXmm x → machine'.xmmReg x = machine.xmmReg x
  memory : ∀ a, (∀ l n, op.StoresAt frame l n → n ≤ (a - machine.effectiveAddress l.mem 0).toNat) →
    machine'.memory.get a = machine.memory.get a

end Operation

/-! ### Effects -/

/-- What a computation may do, with these stores and labels. -/
def Effect.confined (op : Operation) (stores : Location → Nat → Prop)
    (labels : Label → Prop) : Effect where
  binds := labels
  refers := labels
  handlers _ := True
  gprs := op.Clobbers
  xmms := op.ClobbersXmm
  stores := stores
  leaves := False
  raws := False
  marks := False
  paths path :=
    ∃ entry resume src dst double long, path = .convertFixup entry resume src dst double long ∧
    op.Clobbers dst
  scratch := .inl rfl
  floatScratch := .inl rfl

section

variable {op : Operation} {stores : Location → Nat → Prop} {labels : Label → Prop}
  {C : Context} {o : Operand}

theorem sets_confined (h : op.result? = some o) : (Effect.confined op stores labels).Sets o := by
  intro r hr
  cases o with
  | reg r' kind =>
    cases hr
    exact ⟨fun g hg => .inr (.inr ⟨_, h, hg⟩), fun x hx => .inr ⟨_, h, hx⟩⟩
  | stack | const | addr => cases hr

/-- A computation is within its bounds if it receives its result there. -/
theorem Operation.within_confined (hop : op.isComputation = true)
    (h : ∀ o, op.result? = some o → ∀ src, Receives C (.confined op stores labels) src o) :
    op.Within C (.confined op stores labels) := by
  have hsets : ∀ o, op.result? = some o → (Effect.confined op stores labels).Sets o :=
    fun o => sets_confined
  cases op with
  | move src dst => exact h dst rfl src
  | arith op left right result info =>
    refine ⟨fun hdivision => ⟨.inr (.inl ⟨hdivision, .inl rfl⟩), .inr (.inl ⟨hdivision, .inr rfl⟩)⟩,
      fun _ _ _ _ => trivial, h result rfl⟩
  | convert f src dst =>
    exact ⟨hsets dst rfl, fun d entry resume src double long hd _ _ =>
      ⟨entry, resume, src, d, double, long, rfl, .inr (.inr ⟨dst, rfl, hd⟩)⟩⟩
  | condMove cond unorderedIsTrue trueValue falseValue result => exact h result rfl
  | logic | shift | negate | abs | sqrt | compareToInt | lea | monitorAddress | stackAllocate
  | significantBit => exact hsets _ rfl
  | nullCheck object info => exact fun _ _ => trivial
  | compare | safepoint | memoryBarrier => trivial
  | _ => cases hop

theorem fresh_confined (n : Nat) : (Effect.confined op stores (n ≤ ·.index)).Fresh n :=
  ⟨fun _ => id, fun _ => id⟩

/-- What an operation puts off may change what the operation may. -/
theorem clobbers_of_enqueues {p : Part} {path : SlowPath} (hp : p.Lowered)
    (hsource : p.source = .operation op) (hop : op.isComputation = true) (hputs : p.Enqueues path) :
    ∃ entry resume src dst double long, path = .convertFixup entry resume src dst double long ∧
      op.Clobbers dst := by
  have hlower := hp.lower
  rw [hsource] at hlower
  have hwithin : op.Within (Context.of p.before) (.confined op (fun _ _ => True)
      (p.before.buffer.labels.size ≤ ·.index)) :=
    Operation.within_confined hop fun o ho src => ⟨sets_confined ho, fun _ _ _ => trivial⟩
  obtain ⟨paths, hpending, hpaths⟩ :=
    (does_operation trivial (fresh_confined _) hwithin).pending_append
      (Context.holds_of hp.mark) hlower
  have hmem : path ∈ paths := by
    rw [hputs.pending, Array.push_eq_append, Array.append_right_inj] at hpending
    simp [← hpending]
  exact hpaths path hmem

/-! ### Chunks -/

/-- Where nothing is stored, an instruction has no store. -/
theorem store?_eq_none {i : Instr} {link : Option Link}
    (h : (Chunk.instr i link).Within (.confined op (fun _ _ => False) labels)) :
    i.footprint.store? = none := by
  cases hstore : i.footprint.store? with
  | none => rfl
  | some x => exact (h.stores x.1 x.2 hstore).elim

/-- The region of a computation is about registers and memory; its labels do not matter there. -/
theorem within_region {c : Chunk} (h : c.Within (.confined op (fun _ _ => False) labels)) :
    c.Within (.confined op stores fun _ => True) :=
  h.mono (fun _ _ => trivial) (fun _ => id) (fun _ => id) (fun _ _ => False.elim) id id

end

/-- Of the chunks, only the last one stores, and the others refer to these labels. -/
structure Confined (op : Operation) (stores : Location → Nat → Prop) (labels : Label → Prop)
    (new : List Chunk) : Prop where
  within : ∀ c ∈ new, c.Within (.confined op stores labels)
  last : ∀ front i link back, new = front ++ .instr i link :: back →
    i.footprint.store? ≠ none → back = []

section

variable {op : Operation} {stores : Location → Nat → Prop}
  {labels : Label → Prop} {new : List Chunk}

theorem confined_of_within (h : ∀ c ∈ new, c.Within (.confined op (fun _ _ => False) labels)) :
    Confined op stores labels new where
  within c hc :=
    (h c hc).mono (fun _ => id) (fun _ => id) (fun _ => id) (fun _ _ => False.elim) id id
  last := by
    rintro front i link back rfl hstore
    exact absurd (store?_eq_none (h (.instr i link) (by simp))) hstore

/-- A store may follow. -/
theorem Confined.snoc {i : Instr} {link : Option Link}
    (h : ∀ c ∈ new, c.Within (.confined op (fun _ _ => False) labels))
    (hi : (Chunk.instr i link).Within (.confined op stores labels)) :
    Confined op stores labels (new ++ [.instr i link]) where
  within :=
    List.forall_mem_append.mpr ⟨(confined_of_within h).within, List.forall_mem_singleton.mpr hi⟩
  last := by
    intro front j link' back hsplit hstore
    obtain ⟨mid, rfl, hback⟩ | ⟨mid, rfl, hlast⟩ := List.append_eq_append_iff.mp hsplit
    · cases mid with
      | nil => exact (List.cons.inj hback).2.symm
      | cons c mid => simp at hback
    · cases mid with
      | nil => exact (List.cons.inj hlast).2
      | cons c mid =>
        cases hlast
        exact absurd (store?_eq_none (h (.instr j link') (by simp))) hstore

end

/-! ### The parts of a computation -/

section

variable {op : Operation} {frame : Frame} {d d' : Draft} {pre : List Chunk}

/-- The code of a computation in its place. -/
theorem operation_adds (hop : op.isComputation = true)
    (hresult : op.isMove = false → ∀ o, op.result? = some o → o.isRegister = true)
    (hmark : d.buffer.mark = none) (hframe : d.frame = frame) (hrun : operation op d = .ok () d')
    (hs : Sound pre d) : ∃ new, Sound (pre ++ new) d' ∧
      Confined op (op.StoresAt frame) (d.buffer.labels.size ≤ ·.index) new := by
  by_cases hregister : ∀ o, op.result? = some o → o.isRegister = true
  · have hwithin : op.Within (Context.of d) (.confined op (fun _ _ => False)
        (d.buffer.labels.size ≤ ·.index)) := Operation.within_confined hop fun o ho src =>
      receives_register (sets_confined ho) (hregister o ho)
    obtain ⟨new, hs', hnew⟩ :=
      (does_operation trivial (fresh_confined _) hwithin).adds (Context.holds_of hmark) hrun hs
    exact ⟨new, hs', confined_of_within hnew⟩
  · -- A move to memory: the store is the last instruction.
    obtain ⟨src, dst, rfl⟩ : ∃ src dst, op = .move src dst := by
      cases op with
      | move src dst => exact ⟨src, dst, rfl⟩
      | _ => exact absurd (hresult rfl) hregister
    have hdst : dst.isRegister = false := by simpa [Operation.result?] using hregister
    obtain ⟨d₁, journal, hlower, rfl⟩ := operation_run hrun
    let started : Draft := { d with current := (Operation.move src dst).name }
    have hholds : (Context.of started).Holds started := Context.holds_of hmark
    obtain ⟨x, hx, hcloses⟩ : ∃ x, mov src dst false = discard x ∧ Closes (Context.of started)
        (.confined (.move src dst) (fun _ _ => False) (d.buffer.labels.size ≤ ·.index))
        (.confined (.move src dst) ((Operation.move src dst).StoresAt frame)
          (d.buffer.labels.size ≤ ·.index)) x :=
      closes_mov hdst fun hdata l hl => ⟨src, dst, rfl, hdata, hframe ▸ hl, rfl⟩
    have hlower : mov src dst false started = .ok () d₁ := hlower
    rw [hx] at hlower
    obtain ⟨pc, hpc⟩ := Step.discard_eq_ok.mp hlower
    have hstarted : Sound pre started := { hs with }
    obtain ⟨new, i, link, hs', hnew, hi⟩ := hcloses.adds hholds hpc hstarted
    exact ⟨_, { hs' with }, .snoc hnew hi⟩

/-- The fix-up of a conversion ends with the way back, behind all labels that are bound. -/
theorem slowPath_adds {entry resume : Label} {src : Xmm} {dst : Gpr} {double long : Bool}
    (hdst : op.Clobbers dst) (hmark : d.buffer.mark = none)
    (hrun : slowPath (.convertFixup entry resume src dst double long) d = .ok () d')
    (hs : Sound pre d) :
    ∃ front short, Sound (pre ++ (front ++ [.branch short none resume])) d' ∧
      (∀ c ∈ front ++ [.branch short none resume], c.Within (.confined op (fun _ _ => False)
        fun l => (l = entry ∨ l = resume) ∨ d.buffer.labels.size ≤ l.index)) ∧
      ∀ l a, d'.buffer.labelOffset l = some a → a < d'.buffer.position := by
  let e : Effect := .confined op (fun _ _ => False)
    fun l => (l = entry ∨ l = resume) ∨ d.buffer.labels.size ≤ l.index
  obtain ⟨d₃, journal, hfixup, rfl⟩ := slowPath_cases.1 d' hrun
  let started : Draft := { d with current := "convert" }
  have hfixup : convertFixup entry resume src dst double long started = .ok () d₃ := hfixup
  have hholds : (Context.of started).Holds started := Context.holds_of hmark
  have hstarted : Sound pre started := { hs with }
  obtain ⟨front, hfront, heq⟩ : ∃ front : Lower Unit, Does (Context.of started) e front ∧
      convertFixup entry resume src dst double long = (do front; emit (zero dst); jmp resume) :=
    convertFixup_eq ⟨fun _ => .inr, fun _ => .inr⟩ (.inl (.inl rfl)) (.inl (.inr rfl)) hdst
  rw [heq] at hfixup
  obtain ⟨_, d₁, h₁, hfixup⟩ := Step.bind_eq_ok.mp hfixup
  obtain ⟨_, d₂, h₂, h₃⟩ := Step.bind_eq_ok.mp hfixup
  obtain ⟨new, hs₁, hnew⟩ := hfront.adds hholds h₁ hstarted
  cases emitBytes_eq_ok.mp h₂
  obtain ⟨b, hb, rfl⟩ := onBuffer_eq_ok.mp h₃
  have hb : CodeBuffer.branch (shortOpcode none) (longOpcode none) resume
      (d₁.buffer.append (zero dst).encode.bytes) = .ok () b := hb
  have hs₂ : Sound (pre ++ new ++ [.instr (zero dst) none]) _ :=
    hs₁.instr (Instr.encodable_of_none rfl) rfl rfl
  obtain ⟨short, hs₃⟩ : ∃ short, Sound (pre ++ new ++ [.instr (zero dst) none] ++
      [.branch short none resume]) { d₁ with buffer := b } := hs₂.branch hb
  obtain ⟨-, hlabels⟩ := hs₂.written.branch hb
  refine ⟨new ++ [.instr (zero dst) none], short, ?_, ?_, fun l a hl => ?_⟩
  · rw [← List.append_assoc, ← List.append_assoc]
    exact { hs₃ with }
  · refine List.forall_mem_append.mpr ⟨List.forall_mem_append.mpr ⟨hnew, ?_⟩, ?_⟩
    · exact List.forall_mem_singleton.mpr (e.admits_gpr hdst)
    · exact List.forall_mem_singleton.mpr (.inl (.inr rfl))
  · have hbefore : d₁.buffer.labelOffset l = some a := (hlabels l).symm.trans hl
    have hle : a ≤ extent (pre ++ new) := (hs₁.labels l a hbefore).le_extent
    have hpos : 0 < (zero dst).encode.length := Instr.length_pos (Instr.encodable_of_none rfl)
    rw [show ({ d₁ with buffer := b, journal := journal } : Draft).buffer.position =
      b.position from rfl, hs₃.position]
    simp only [extent_append, extent_cons, extent_nil, size_instr] at hle ⊢
    omega

end

/-! ### Runs -/

section

variable {op : Operation} {frame : Frame} {p q : Part} {new : List Chunk}

/-- Control stays in the code of a computation in its place. -/
theorem Confined.stays
    (h : Confined op (op.StoresAt frame) (p.before.buffer.labels.size ≤ ·.index) new) :
    p.Stays (.confined op (op.StoresAt frame) fun _ => True) p new where
  within c hc :=
    (h.within c hc).mono (fun _ _ => trivial) (fun _ => id) (fun _ => id) (fun _ _ => id) id id
  refers _ _ _ hmem := .inr (h.within _ hmem)
  stores front i link back hnew hstore := ⟨rfl, h.last front i link back hnew hstore⟩
  returns hne := absurd rfl hne

/-- Control stays in code that has been put off, or goes back. -/
theorem stays_of_slowPath {entry resume : Label} {src : Xmm} {dst : Gpr} {double long : Bool}
    {front : List Chunk} {short : Bool}
    (hputs : p.Enqueues (.convertFixup entry resume src dst double long))
    (hwithin : ∀ c ∈ front ++ [.branch short none resume], c.Within (.confined op (fun _ _ => False)
      fun l => (l = entry ∨ l = resume) ∨ q.before.buffer.labels.size ≤ l.index))
    (hbound : ∀ l a, q.after.buffer.labelOffset l = some a → a < q.after.buffer.position) :
    p.Stays (.confined op (op.StoresAt frame) fun _ => True) q
      (front ++ [.branch short none resume]) where
  within c hc := within_region (hwithin c hc)
  refers short' cond l hmem := by
    obtain ⟨op', -, -, howns⟩ := hputs.putsOff
    obtain hl | hl : (l = entry ∨ l = resume) ∨ q.before.buffer.labels.size ≤ l.index :=
      hwithin _ hmem
    · exact .inl (howns l (by simpa [SlowPath.labels] using hl))
    · exact .inr hl
  stores front' i link back hsplit hstore := by
    have hmem : .instr i link ∈ front ++ [.branch short none resume] := by simp [hsplit]
    exact absurd (store?_eq_none (hwithin _ hmem)) hstore
  returns _ := ⟨⟨front, short, resume, rfl⟩, hbound⟩

/-- What a computation stores to has an address that its code does not change. -/
theorem steady_confined {labels : Label → Prop}
    (hscratch : ∀ l n, op.StoresAt frame l n → l.mem.uses scratch = false) :
    (Effect.confined op (op.StoresAt frame) labels).Steady where
  stays := not_false
  raws := not_false
  plain := by
    rintro l n ⟨src, dst, -, hdata, hplace, -⟩
    obtain ⟨m, rfl, hrip⟩ := place?_plain hdata hplace
    exact ⟨rfl, hrip⟩
  fixed := by
    rintro l n hstore g huses (rfl | ⟨hdivision, -⟩ | ⟨o, hresult, hg⟩)
    · exact absurd huses (by simp [hscratch l n hstore])
    · obtain ⟨src, dst, rfl, -⟩ := hstore
      cases hdivision
    · obtain ⟨src, dst, rfl, -, hplace, -⟩ := hstore
      cases hresult
      obtain ⟨r, hr, -⟩ := register?_of_gpr? hg
      cases o with
      | reg => cases hplace
      | stack | const | addr => cases hr

end

/-- The installed code of a computation, with what it has put off, runs from its start to its end
and changes its result, the scratch registers, `rax` and `rdx` for a division, and where a move
stores to, the bytes there. An object's address is stored as a word, whatever the kind of the
place. -/
theorem spares_of_run {target : Target} {frame : Frame} {name : String} {id : Option UInt32}
    {constants : List DataConstant} {ops : List Operation} {d d' e e' : Draft} {op : Operation}
    {m : Method} {base : Word} {r : Resolver} {image : Array UInt8} {machine machine' : Machine}
    (hd : Draft.start target frame name id = .ok d) (hm : method constants ops d = .ok m d')
    (hinstall : m.install base r = .ok image) (hreach : Reaches constants ops d (.operation op) e)
    (hlower : operation op e = .ok () e') (hop : op.isComputation = true)
    (hresult : op.isMove = false → ∀ o, op.result? = some o → o.isRegister = true)
    (hrsp : ∀ o, op.result? = some o → gpr? o ≠ some .rsp)
    (hscratch : ∀ l n, op.StoresAt frame l n → l.mem.uses scratch = false)
    (hloaded : machine.Loaded base image)
    (hrip : machine.rip = base + BitVec.ofNat 64 e.buffer.position)
    (hrun : machine.RunsTo (base + BitVec.ofNat 64 e'.buffer.position) machine') :
    op.Spares frame machine machine' := by
  cases hreach with
  | front hsources hfront =>
    obtain ⟨_, d₁, hprepare, hfront⟩ := Step.bind_eq_ok.mp hfront
    obtain ⟨d₂, hbody, -, -, hcompleted⟩ := method_eq_ok hm
    obtain ⟨front, back, p, paths, rfl, hsource, hlayout, hqueued⟩ :=
      exists_layout_around hd hprepare hsources hfront hbody
    let E : Effect := .confined op (op.StoresAt frame) fun _ => True
    have hp : p ∈ front ++ p :: back := by simp
    have hlowered := hlayout.lowered p hp
    have hafter : p.after = e' := by
      have := hlowered.lower
      rw [hsource] at this
      cases hlower.symm.trans this
      rfl
    have hstart : (Context.of d).Holds d := by
      obtain ⟨journal, rfl⟩ := Draft.start_eq_ok hd
      exact Context.holds_of rfl
    have hprepared := does_preparation (C := Context.of d) (e := E) constants ops
    have hframe : p.before.frame = frame := by
      obtain ⟨journal, rfl⟩ := Draft.start_eq_ok hd
      exact (hlayout.chain.frame_eq hlayout.lowered hp).trans
        (hprepared.run hstart hprepare).2.1.frame
    obtain ⟨cs, hs, -⟩ := hprepared.adds hstart hprepare (sound_start hd)
    obtain ⟨post, hs', hlies⟩ :=
      hlayout.chain.exists_lies (Q := fun q new => p.Comprises q → p.Stays E q new)
      hs fun q hq pre hpre => by
      have hqlowered := hlayout.lowered q hq
      by_cases hcomprises : p.Comprises q
      · obtain rfl | ⟨path, hputs, hslow⟩ := hcomprises
        · have hrunq := hqlowered.lower
          rw [hsource] at hrunq
          obtain ⟨new, hnew, hconfined⟩ :=
            operation_adds hop hresult hqlowered.mark hframe hrunq hpre
          exact ⟨new, hnew, fun _ => hconfined.stays⟩
        · obtain ⟨entry, resume, src, dst, double, long, rfl, hdst⟩ :=
            clobbers_of_enqueues hlowered hsource hop hputs
          have hrunq := hqlowered.lower
          rw [hslow] at hrunq
          obtain ⟨new, short, hnew, hwithin, hbound⟩ :=
            slowPath_adds hdst hqlowered.mark hrunq hpre
          exact ⟨_, hnew, fun _ => stays_of_slowPath hputs hwithin hbound⟩
      · obtain ⟨new, hnew, -⟩ :=
          (q.source.does_lower q.before).adds (Context.holds_of hqlowered.mark) hqlowered.lower hpre
        exact ⟨new, hnew, fun h => absurd h hcomprises⟩
    have hregion := hlayout.region hqueued hp fun q hq hpq => by
      obtain ⟨pre, new, hat, hstays⟩ := hlies q hq
      exact ⟨pre, new, hat, hstays hpq⟩
    have hinstalled := Laid.installed ⟨hcompleted, hs'⟩ hinstall
    have hinside : Inside (p.Comprised E (cs ++ post) (front ++ p :: back)) p.after.buffer.position
        p.before.buffer.position := by
      obtain ⟨pre, new, hat, hstays⟩ := hlies p hp
      obtain hend | ⟨c, hc⟩ := hat.start
      · exact .inl hend
      · exact .inr ⟨c, p, hp, .inl rfl, pre, new, hat, hstays (.inl rfl), hc⟩
    rw [← hafter] at hrun
    have hallows := hregion.run (steady_confined hscratch) hinstalled hrun hloaded hinside hrip
    refine ⟨hallows.gprs _ ?_, hallows.gprs, hallows.xmms, hallows.memory⟩
    rintro (hne | ⟨-, hne | hne⟩ | ⟨o, ho, hg⟩)
    · cases hne
    · cases hne
    · cases hne
    · exact hrsp o ho hg

/-- A conversion of NaN runs through the code that has been put off. -/
theorem spares_of_run_nan :
    let target : Target := ⟨{ Options.standard with useStackBanging := false }, ⟨true, true⟩, 4096⟩
    let op : Operation := .convert .f2i (.reg (.floating 1) .float) (.reg (.general 0) .int)
    let ops : List Operation := [op, .ret none]
    let base : Word := 0x10000000
    ∃ d m d' e e' image machine machine', Draft.start target .empty "nan" none = .ok d ∧
      method [] ops d = .ok m d' ∧ m.install base ⟨fun _ => none, fun _ => none⟩ = .ok image ∧
      Reaches [] ops d (.operation op) e ∧ operation op e = .ok () e' ∧ machine.Loaded base image ∧
      machine.rip = base + BitVec.ofNat 64 e.buffer.position ∧
      machine.RunsTo (base + BitVec.ofNat 64 e'.buffer.position) machine' ∧
      machine.xmmReg ⟨1⟩ = 0x7FC00000 ∧ machine'.executed.size = 7 ∧
      op.Spares .empty machine machine' := by
  intro target op ops base
  let journal := (Journal.start "nan" none []).log (.compiling "nan" none 0 0)
  let d : Draft := ⟨target, .empty, .empty, .empty, .empty, #[], journal, "prologue"⟩
  have hd : Draft.start target .empty "nan" none = .ok d := rfl
  let front := preparation [] ops >>= fun _ => [Source.prologue].forM Source.lower
  let loaded (image : Array UInt8) (position : Nat) : Machine :=
    { (Machine.initial.setXmm ⟨1⟩
      0x7FC00000).load base image with rip := base + BitVec.ofNat 64 position }
  have hruns : (match method [] ops d, front d with
      | .ok m _, .ok _ e =>
        match m.install base ⟨fun _ => none, fun _ => none⟩, operation op e with
        | .ok image, .ok _ e' => image.size ≤ 2 ^ 64 &&
          (Machine.runTo? (base + BitVec.ofNat 64 e'.buffer.position) 20
            (loaded image e.buffer.position)).any fun machine' => machine'.executed.size == 7
        | _, _ => false
      | _, _ => false) = true := by decide +kernel
  cases hm : method [] ops d with
  | error err d' => simp [hm] at hruns
  | ok m d' =>
    cases he : front d with
    | error err e => simp [hm, he] at hruns
    | ok u e =>
      rw [hm, he] at hruns
      dsimp only at hruns
      cases himage : m.install base ⟨fun _ => none, fun _ => none⟩ with
      | error err => simp [himage] at hruns
      | ok image =>
        cases he' : operation op e with
        | error err e' => simp [himage, he'] at hruns
        | ok u' e' =>
          simp only [himage, he', Bool.and_eq_true, decide_eq_true_eq, Option.any_eq_true,
            beq_iff_eq] at hruns
          obtain ⟨hsize, machine', hrun, hexecuted⟩ := hruns
          have hloaded : (loaded image e.buffer.position).Loaded base image :=
            ((Machine.initial.setXmm ⟨1⟩ 0x7FC00000).loaded_load base hsize).congr fun _ => rfl
          have hreach : Reaches [] ops d (.operation op) e := .front rfl he
          have hrunsTo := Machine.runsTo_of_runTo? hrun
          refine ⟨d, m, d', e, e', image, _, machine', hd, hm, himage, hreach, he',
            hloaded, rfl, hrunsTo, rfl, hexecuted, ?_⟩
          refine spares_of_run hd hm himage hreach he' rfl ?_ ?_ ?_ hloaded rfl hrunsTo
          · rintro - o ⟨⟩
            rfl
          · rintro o ⟨⟩
            decide
          · rintro l n ⟨src, dst, hmove, -⟩
            simp [op] at hmove

end MachineCode
