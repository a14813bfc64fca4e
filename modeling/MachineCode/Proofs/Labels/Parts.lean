import MachineCode.Proofs.Labels.Queue
import MachineCode.Proofs.Labels.Transcripts

/-! The parts of a method: its prologue, its operations and the code that was put off. Each of them
is a run of the code buffer. It uses the labels that its source names, and new labels; these are its
own. -/
namespace MachineCode

open X64 Lower

/-- What a part of the code is made from. -/
inductive Source where
  | prologue
  | operation (op : Operation)
  | slowPath (path : SlowPath)

namespace Source

def lower : Source → Lower Unit
  | prologue => Lower.prologue
  | operation op => Lower.operation op
  | slowPath path => Lower.slowPath path

/-- The labels to bind that are there before. -/
def Binds : Source → Label → Prop
  | prologue, _ => False
  | operation op, l => op = .label l
  | slowPath path, l => l ∈ path.labels

/-- The labels to refer to that are there before. -/
def Refers : Source → Label → Prop
  | prologue, _ => False
  | operation op, l => l ∈ op.labels
  | slowPath path, l => l ∈ path.labels

/-- What the source allows where there are `n` labels before. -/
def effect (s : Source) (n : Nat) : Effect :=
  .naming (fun l => s.Binds l ∨ n ≤ l.index) (fun l => s.Refers l ∨ n ≤ l.index)
    (fun _ => True) fun _ =>
    ∃ op, s = .operation op

theorem fresh_effect (s : Source) (n : Nat) : (s.effect n).Fresh n :=
  ⟨fun _ => .inr, fun _ => .inr⟩

theorem does_lower (s : Source) (d : Draft) :
    Does (Context.of d) (s.effect d.buffer.labels.size) s.lower := by
  have hfresh := s.fresh_effect d.buffer.labels.size
  have hopen : (s.effect d.buffer.labels.size).Open := Effect.open_naming
  cases s with
  | prologue => exact does_prologue hopen fun _ _ => trivial
  | operation op =>
    refine does_operation trivial hfresh (hopen.within ?_)
    exact ⟨fun _ h => .inl h, fun _ => .inl, fun _ _ => trivial, fun _ _ _ _ _ _ => trivial,
      fun _ _ _ _ _ _ _ _ _ _ _ _ _ => ⟨op, rfl⟩, fun _ operands _ _ _ op _ =>
        op.within_naming operands,
      fun _ _ _ _ _ _ _ => ⟨op, rfl⟩⟩
  | slowPath path =>
    refine does_slowPath trivial hfresh ?_
    cases path with
    | convertFixup entry resume src dst double long =>
      exact ⟨.inl (by simp [Binds, SlowPath.labels]),
        .inl (by simp [Refers, SlowPath.labels]), trivial⟩
    | template x => exact ⟨Template.within_naming (fun _ _ _ _ => trivial) fun _ _ _ _ => trivial,
        fun _ => .inl, fun _ => .inl⟩

end Source

/-! ### Operations that name labels -/

/-- How an operation whose code names labels is written. The entries of a jump table end at
`stop`. -/
def Operation.Spells (stop : Nat) (steps : List BufferOp) : Operation → Prop
  | .label l => steps = [.bind l]
  | .branch none target => steps = [.jmp target]
  | .branch (some cond) target => steps = [.jcc (.ofCondition cond) target]
  | .floatBranch cond target unordered =>
    steps = [.jcc .p unordered, .jcc (.ofCondition cond.toUnsigned) target]
  | .tableSwitch _ _ targets default =>
    (targets = [] ∧ steps = [.jmp default]) ∨
      targets ≠ [] ∧ ∃ front middle table,
        steps = front ++ .jcc .a default :: middle ++ targets.map (.tableEntry · table) ∧
        stop = table + tableEntrySize * targets.length
  | _ => True

/-- A run of table entries. -/
theorem references_eq_ok {targets : List Label} {table : Nat} {d d' : Draft}
    (hrun : targets.forM (fun l => onBuffer (CodeBuffer.reference l (.table table))) d =
      .ok () d') :
    BufferOp.runAll (targets.map (.tableEntry · table)) d.buffer = .ok () d'.buffer := by
  induction targets generalizing d with
  | nil =>
    cases hrun
    rfl
  | cons l targets ih =>
    obtain ⟨_, d₁, h₁, hrun⟩ := Step.bind_eq_ok.mp hrun
    obtain ⟨b, hb, rfl⟩ := onBuffer_eq_ok.mp h₁
    exact BufferOp.runAll_cons.mpr ⟨b, hb, ih hrun⟩

theorem CodeBuffer.position_reference {l : Label} {kind : ReferenceKind} {b b' : CodeBuffer}
    (hrun : CodeBuffer.reference l kind b = .ok () b') : b'.position = b.position + kind.width := by
  unfold CodeBuffer.reference at hrun
  rw [Step.get_bind] at hrun
  cases hl : b.labelOffset l with
  | some target =>
    cases hfield : CodeBuffer.field ⟨b.position, kind⟩ target with
    | ok bytes =>
      simp only [hl, hfield] at hrun
      cases hrun
      rw [CodeBuffer.position_append, Piece.length_field hfield]
    | error err =>
      simp only [hl, hfield] at hrun
      cases hrun
  | none =>
    simp only [hl] at hrun
    obtain ⟨_, b₁, h₁, hrun⟩ := Step.bind_eq_ok.mp hrun
    obtain ⟨_, b₀, h₀, h₁⟩ := Step.bind_eq_ok.mp h₁
    cases CodeBuffer.reserveLabels_eq_ok h₀
    cases Step.modify_eq_ok.mp h₁
    cases hrun
    rw [CodeBuffer.position_append, Piece.length_placeholder]
    rfl

/-- A table entry is four bytes. -/
theorem position_runAll_tableEntry {targets : List Label} {table : Nat} {b b' : CodeBuffer}
    (hrun : BufferOp.runAll (targets.map (.tableEntry · table)) b = .ok () b') :
    b'.position = b.position + tableEntrySize * targets.length := by
  induction targets generalizing b with
  | nil =>
    cases hrun
    rfl
  | cons l targets ih =>
    obtain ⟨c, hc, hrun⟩ := BufferOp.runAll_cons.mp hrun
    rw [ih hrun, CodeBuffer.position_reference hc, List.length_cons,
      ReferenceKind.width, tableEntrySize]
    omega

/-- Bytes are written one after the other. -/
theorem runAll_emits {is : List Instr} {d d' : Draft} (hrun : is.forM emit d = .ok () d') :
    BufferOp.runAll (is.map fun i => .emit i.encode.bytes) d.buffer = .ok () d'.buffer := by
  induction is generalizing d with
  | nil =>
    cases hrun
    rfl
  | cons i is ih =>
    obtain ⟨_, d₁, h₁, hrun⟩ := Step.bind_eq_ok.mp hrun
    cases emitBytes_eq_ok.mp h₁
    exact BufferOp.runAll_cons.mpr ⟨_, rfl, ih hrun⟩

/-- The code of a switch behind its checks. -/
theorem switch_eq_ok {i j : Instr} {distance : Nat → Int} {is : List Instr} {targets : List Label}
    {default : Label} {f : Nat → RecordStep Unit} {d d' : Draft}
    (hrun : (do
      emit i
      emit j
      jcc .a default
      let p ← position
      emitLeaRelative scratch (distance p)
      is.forM emit
      emitAlign tableEntrySize
      let table ← position
      targets.forM fun l => onBuffer (CodeBuffer.reference l (.table table))
      record (f table)) d = .ok () d') :
    ∃ front middle table, BufferOp.runAll (front ++ .jcc .a default :: middle ++
        targets.map (.tableEntry · table)) d.buffer = .ok () d'.buffer ∧
      d'.buffer.position = table + tableEntrySize * targets.length ∧
      ∀ op ∈ front ++ middle, ∃ bytes, op = .emit bytes := by
  obtain ⟨_, d₁, h₁, hrun⟩ := Step.bind_eq_ok.mp hrun
  cases emitBytes_eq_ok.mp h₁
  obtain ⟨_, d₂, h₂, hrun⟩ := Step.bind_eq_ok.mp hrun
  cases emitBytes_eq_ok.mp h₂
  obtain ⟨_, d₃, h₃, hrun⟩ := Step.bind_eq_ok.mp hrun
  obtain ⟨b, hb, rfl⟩ := onBuffer_eq_ok.mp h₃
  obtain ⟨p, d₄, ⟨⟩, hrun⟩ := Step.bind_eq_ok.mp hrun
  obtain ⟨_, d₅, h₅, hrun⟩ := Step.bind_eq_ok.mp hrun
  obtain ⟨_, d₆, h₆, hrun⟩ := Step.bind_eq_ok.mp hrun
  obtain ⟨_, d₇, h₇, hrun⟩ := Step.bind_eq_ok.mp hrun
  obtain ⟨table, d₈, ⟨⟩, hrun⟩ := Step.bind_eq_ok.mp hrun
  obtain ⟨_, d₉, h₉, hrun⟩ := Step.bind_eq_ok.mp hrun
  obtain ⟨t, -, rfl⟩ := record_eq_ok.mp hrun
  cases emitBytes_eq_ok.mp h₅
  obtain ⟨q, _, ⟨⟩, h₇⟩ := Step.bind_eq_ok.mp h₇
  cases emitBytes_eq_ok.mp h₇
  have hentries := references_eq_ok h₉
  let pad : BufferOp := .emit (padding d₆.buffer.position tableEntrySize)
  let lea : BufferOp :=
    .emit (Instr.lea true scratch (.rip (Int32.ofInt (distance b.position)))).encode.bytes
  refine ⟨[.emit i.encode.bytes, .emit j.encode.bytes],
    lea :: is.map (fun i => .emit i.encode.bytes) ++ [pad], _,
    BufferOp.runAll_append.mpr ⟨_, BufferOp.runAll_append.mpr ⟨_, rfl, ?_⟩, hentries⟩,
    position_runAll_tableEntry hentries, ?_⟩
  · exact BufferOp.runAll_cons.mpr ⟨b, hb, BufferOp.runAll_append.mpr ⟨d₆.buffer,
      BufferOp.runAll_cons.mpr ⟨_, rfl, runAll_emits h₆⟩, rfl⟩⟩
  · intro op hop
    simp only [List.mem_append, List.mem_cons, List.not_mem_nil, or_false, List.mem_map] at hop
    obtain (rfl | rfl) | (rfl | ⟨i, -, rfl⟩) | rfl := hop <;> exact ⟨_, rfl⟩

/-- How a switch is written: in front of the entries there is one reference, to the default. -/
theorem tableSwitch_eq_ok {index : Operand} {low : Int32} {targets : List Label} {default : Label}
    {d d' : Draft} (hmark : d.buffer.mark = none)
    (hrun : tableSwitch index low targets default d = .ok () d') :
    ∃ steps, BufferOp.runAll steps d.buffer = .ok () d'.buffer ∧
      (Operation.tableSwitch index low targets default).Spells d'.buffer.position steps ∧
      ∀ e : Effect, (∀ l ∈ targets, e.refers l) → e.refers default → ∀ op ∈ steps, op.Within e := by
  revert hrun
  unfold tableSwitch
  obtain ⟨idx, hidx, -⟩ | ⟨err, herr, -⟩ := finds_gpr index d (Context.holds_of hmark)
  swap
  · rw [Step.bind_of_error herr]
    nofun
  rw [Step.bind_of_ok hidx]
  split
  · nofun
  split
  · rename_i hempty
    intro hrun
    obtain ⟨b, hb, rfl⟩ := onBuffer_eq_ok.mp hrun
    refine ⟨[.jmp default], BufferOp.runAll_cons.mpr ⟨b, hb, rfl⟩,
      .inl ⟨List.isEmpty_iff.mp hempty, rfl⟩, fun e _ hdefault op hop => ?_⟩
    rw [List.mem_singleton.mp hop]
    exact BufferOp.within_of_refers rfl hdefault
  rename_i hempty
  have hne : targets ≠ [] := fun h => hempty (List.isEmpty_iff.mpr h)
  cases int32? (targets.length - 1 : Nat) with
  | none => nofun
  | some span =>
    dsimp only
    cases int32? (low.toInt + span.toInt) with
    | none => nofun
    | some high =>
      intro hrun
      have hswitch : ∃ front middle table, BufferOp.runAll (front ++ .jcc .a default :: middle ++
            targets.map (.tableEntry · table)) d.buffer = .ok () d'.buffer ∧
          d'.buffer.position = table + tableEntrySize * targets.length ∧
          ∀ op ∈ front ++ middle, ∃ bytes, op = .emit bytes := by
        by_cases hlow : low = 0
        · simp only [hlow, reduceIte] at hrun
          exact switch_eq_ok hrun
        · simp only [hlow, reduceIte] at hrun
          exact switch_eq_ok hrun
      obtain ⟨front, middle, table, hsteps, hstop, hemits⟩ := hswitch
      refine ⟨_, hsteps, .inr ⟨hne, front, middle, table, rfl, hstop⟩,
        fun e htargets hdefault => ?_⟩
      have hwritten : ∀ op ∈ front ++ middle, op.Within e := fun op hop => by
        obtain ⟨bytes, rfl⟩ := hemits op hop
        exact BufferOp.within_emit bytes
      obtain ⟨hfront, hmiddle⟩ := List.forall_mem_append.mp hwritten
      refine List.forall_mem_append.mpr ⟨List.forall_mem_append.mpr ⟨hfront,
        List.forall_mem_cons.mpr ⟨BufferOp.within_of_refers rfl hdefault, hmiddle⟩⟩,
        fun op hop => ?_⟩
      obtain ⟨l, hl, rfl⟩ := List.mem_map.mp hop
      exact BufferOp.within_of_refers rfl (htargets l hl)

/-- A jump is one operation. -/
theorem onBuffer_run {op : BufferOp} {d d' : Draft} (hrun : onBuffer op.run d = .ok () d') :
    BufferOp.runAll [op] d.buffer = .ok () d'.buffer := by
  obtain ⟨b, hb, rfl⟩ := onBuffer_eq_ok.mp hrun
  exact BufferOp.runAll_cons.mpr ⟨b, hb, rfl⟩

/-- An operation is a run of the buffer, and one that is known where the operation names labels. -/
theorem steps_of_operation {op : Operation} {d d' : Draft} (hmark : d.buffer.mark = none)
    (hrun : operation op d = .ok () d') :
    ∃ steps, BufferOp.runAll steps d.buffer = .ok () d'.buffer ∧
    op.Spells d'.buffer.position steps ∧
      ∀ step ∈ steps, step.Within ((Source.operation op).effect d.buffer.labels.size) := by
  have hany : ∃ steps, BufferOp.runAll steps d.buffer = .ok () d'.buffer ∧
      ∀ step ∈ steps, step.Within ((Source.operation op).effect d.buffer.labels.size) :=
    ((Source.operation op).does_lower d).transcribed (Context.holds_of hmark) hrun
  obtain ⟨d₀, d₁, hd₀, hlower, hbuffer⟩ : ∃ d₀ d₁, d₀.buffer = d.buffer ∧ lower op d₀ = .ok () d₁ ∧
      d'.buffer = d₁.buffer := by
    obtain ⟨d₁, hlower, hbuffer, -⟩ := operation_eq_ok hrun
    exact ⟨{ d with current := op.name }, d₁, rfl, hlower, hbuffer⟩
  rw [← hd₀] at hmark
  have hrefers : ∀ l ∈ op.labels, ((Source.operation op).effect d.buffer.labels.size).refers l :=
    fun l => .inl
  rw [hbuffer] at hany ⊢
  rw [← hd₀] at hany hrefers ⊢
  cases op with
  | label l =>
    obtain ⟨fresh, d₂, h₂, hlower⟩ := Step.bind_eq_ok.mp hlower
    obtain ⟨b, hb, rfl⟩ := onBuffer_eq_ok.mp h₂
    have hd₁ : d₁.buffer = b := by
      cases fresh with
      | true =>
        obtain ⟨p, d₃, ⟨⟩, hlower⟩ := Step.bind_eq_ok.mp hlower
        cases Step.modify_eq_ok.mp hlower
        rfl
      | false =>
        cases hlower
        rfl
    refine ⟨[.bind l], BufferOp.runAll_cons.mpr ⟨b, Step.discard_of_ok hb, hd₁ ▸ rfl⟩, rfl, ?_⟩
    exact List.forall_mem_singleton.mpr (BufferOp.within_bind (.inl rfl))
  | branch cond target =>
    have htarget := hrefers target (by simp [Operation.labels])
    cases cond with
    | none =>
      have hstep : onBuffer (BufferOp.jmp target).run d₀ = .ok () d₁ := hlower
      exact ⟨[.jmp target], onBuffer_run hstep, rfl,
        List.forall_mem_singleton.mpr (BufferOp.within_of_refers rfl htarget)⟩
    | some cond =>
      have hstep : onBuffer (BufferOp.jcc (.ofCondition cond) target).run d₀ = .ok () d₁ := hlower
      exact ⟨[.jcc (.ofCondition cond) target], onBuffer_run hstep, rfl,
        List.forall_mem_singleton.mpr (BufferOp.within_of_refers rfl htarget)⟩
  | floatBranch cond target unordered =>
    obtain ⟨_, d₂, h₂, h₁⟩ := Step.bind_eq_ok.mp hlower
    have hfirst : onBuffer (BufferOp.jcc .p unordered).run d₀ = .ok () d₂ := h₂
    have hsecond :
        onBuffer (BufferOp.jcc (.ofCondition cond.toUnsigned) target).run d₂ = .ok () d₁ := h₁
    refine ⟨[.jcc .p unordered, .jcc (.ofCondition cond.toUnsigned) target],
      BufferOp.runAll_append.mpr ⟨_, onBuffer_run hfirst, onBuffer_run hsecond⟩, rfl,
      List.forall_mem_cons.mpr ⟨?_, List.forall_mem_singleton.mpr ?_⟩⟩
    · exact BufferOp.within_of_refers rfl (hrefers unordered (by simp [Operation.labels]))
    · exact BufferOp.within_of_refers rfl (hrefers target (by simp [Operation.labels]))
  | tableSwitch index low targets default =>
    change tableSwitch index low targets default d₀ = .ok () d₁ at hlower
    obtain ⟨steps, hsteps, hspells, hwithin⟩ := tableSwitch_eq_ok hmark hlower
    exact ⟨steps, hsteps, hspells, hwithin _ (fun l hl => hrefers l (List.mem_append_left _ hl))
      (hrefers default (List.mem_append_right _ (List.mem_singleton_self _)))⟩
  | _ =>
    obtain ⟨steps, hsteps, hwithin⟩ := hany
    exact ⟨steps, hsteps, trivial, hwithin⟩

/-! ### Parts -/

/-- A part of a method, with the drafts before and after it, and what it does to the code buffer. -/
structure Part where
  source : Source
  before : Draft
  after : Draft
  steps : List BufferOp

namespace Part

/-- The labels that the part makes. -/
def Owns (p : Part) (l : Label) : Prop :=
  p.before.buffer.labels.size ≤ l.index ∧ l.index < p.after.buffer.labels.size

/-- The code is put off by the part. Its labels are among the part's own. -/
def PutsOff (p : Part) (path : SlowPath) : Prop :=
  ∃ op, p.source = .operation op ∧ op.PutsOff p.before.buffer.labels.size path ∧
    ∀ l ∈ path.labels, p.Owns l

/-- The part is lowered from its source. It uses no labels but those of its source and its own. -/
structure Lowered (p : Part) : Prop where
  mark : p.before.buffer.mark = none
  lower : p.source.lower p.before = .ok () p.after
  run : BufferOp.runAll p.steps p.before.buffer = .ok () p.after.buffer
  binds : ∀ l, .bind l ∈ p.steps → p.source.Binds l ∨ p.Owns l
  refers : ∀ step ∈ p.steps, ∀ l, step.refers? = some l → p.source.Refers l ∨ p.Owns l
  spells : ∀ op, p.source = .operation op → op.Spells p.after.buffer.position p.steps

end Part

/-- Every source that is lowered is a part. -/
theorem exists_part {s : Source} {d d' : Draft} (hmark : d.buffer.mark = none)
    (hrun : s.lower d = .ok () d') :
    ∃ steps, (Part.mk s d d' steps).Lowered ∧ d'.buffer.mark = none := by
  have hsteps : ∃ steps, BufferOp.runAll steps d.buffer = .ok () d'.buffer ∧
      (∀ op, s = .operation op → op.Spells d'.buffer.position steps) ∧
      ∀ step ∈ steps, step.Within (s.effect d.buffer.labels.size) := by
    cases s with
    | operation op =>
      obtain ⟨steps, hsteps, hspells, hwithin⟩ := steps_of_operation hmark hrun
      refine ⟨steps, hsteps, ?_, hwithin⟩
      rintro _ ⟨⟩
      exact hspells
    | prologue | slowPath path =>
      obtain ⟨steps, hsteps, hwithin⟩ :=
        (Source.does_lower _ d).transcribed (Context.holds_of hmark) hrun
      exact ⟨steps, hsteps, fun op h => absurd h (by simp), hwithin⟩
  obtain ⟨steps, hsteps, hspells, hwithin⟩ := hsteps
  refine ⟨steps, ⟨hmark, hrun, hsteps, fun l hl => ?_, fun step hstep l hl => ?_, hspells⟩,
    ((s.does_lower d).run (Context.holds_of hmark) hrun).2.1.mark⟩
  · exact ((hwithin _ hl).binds l rfl).imp_right fun h =>
      ⟨h, BufferOp.lt_of_runAll hsteps hl (.inl rfl)⟩
  · exact ((hwithin _ hstep).refers l hl).imp_right fun h =>
      ⟨h, BufferOp.lt_of_runAll hsteps hstep (.inr hl)⟩

/-- The part puts off this code, and nothing else. -/
structure Part.Enqueues (p : Part) (path : SlowPath) : Prop where
  putsOff : p.PutsOff path
  pending : p.after.pending = p.before.pending.push path

/-- A source puts off one piece of code at most, with labels of the part's own. -/
theorem pending_of_lower {s : Source} {d d' : Draft} (hmark : d.buffer.mark = none)
    (hrun : s.lower d = .ok () d') (steps : List BufferOp) :
    d'.pending = d.pending ∨ ∃ path, (Part.mk s d d' steps).Enqueues path := by
  cases s with
  | operation op =>
    obtain h | ⟨path, hpath, hpending, howns⟩ := putsOff_of_operation hmark hrun
    · exact .inl h
    · exact .inr ⟨path, ⟨op, rfl, hpath, howns⟩, hpending⟩
  | prologue | slowPath path =>
    exact .inl ((Source.does_lower _ d).pending_eq (fun _ ⟨_, h⟩ => absurd h (by simp))
      (Context.holds_of hmark) hrun)

/-! ### Parts in a row -/

/-- The parts lead from one draft to another. In between nothing happens but to the queue of the
code that is put off. -/
def Chain : Draft → List Part → Draft → Prop
  | d, [], d' => ∃ queue, d' = { d with pending := queue }
  | d, p :: ps, d' => (∃ queue, p.before = { d with pending := queue }) ∧ Chain p.after ps d'

theorem Chain.queue {d d' : Draft} {ps : List Part} (queue : Array SlowPath)
    (h : Chain { d with pending := queue } ps d') : Chain d ps d' := by
  cases ps with
  | nil => exact h
  | cons p ps => exact h

theorem Chain.append {d e d' : Draft} {ps qs : List Part} (h : Chain d ps e) (h' : Chain e qs d') :
    Chain d (ps ++ qs) d' := by
  induction ps generalizing d with
  | nil =>
    obtain ⟨queue, rfl⟩ := h
    exact h'.queue
  | cons p ps ih => exact ⟨h.1, ih h.2⟩

/-- The sources are lowered from one draft to another, one after the other. -/
structure Parted (sources : List Source) (d : Draft) (parts : List Part) (d' : Draft) : Prop where
  chain : Chain d parts d'
  sources : parts.map Part.source = sources
  lowered : ∀ p ∈ parts, p.Lowered

theorem Parted.append {ss ts : List Source} {d e d' : Draft} {ps qs : List Part}
    (h : Parted ss d ps e) (h' : Parted ts e qs d') : Parted (ss ++ ts) d (ps ++ qs) d' where
  chain := h.chain.append h'.chain
  sources := by rw [List.map_append, h.sources, h'.sources]
  lowered := List.forall_mem_append.mpr ⟨h.lowered, h'.lowered⟩

/-- What is put off behind the code that was put off before is put off by one of the parts. -/
def Queues (parts : List Part) (d d' : Draft) : Prop :=
  ∃ paths, d'.pending.toList = d.pending.toList ++ paths ∧
    ∀ path ∈ paths, ∃ p ∈ parts, p.Enqueues path

theorem Queues.trans {ps qs : List Part} {d e d' : Draft} (h : Queues ps d e)
    (h' : Queues qs e d') :
    Queues (ps ++ qs) d d' := by
  obtain ⟨paths, hpaths, hqueued⟩ := h
  obtain ⟨paths', hpaths', hqueued'⟩ := h'
  refine ⟨paths ++ paths', by rw [hpaths', hpaths, List.append_assoc],
    List.forall_mem_append.mpr ⟨fun path hpath => ?_, fun path hpath => ?_⟩⟩
  · obtain ⟨p, hp, hputs⟩ := hqueued path hpath
    exact ⟨p, List.mem_append_left _ hp, hputs⟩
  · obtain ⟨p, hp, hputs⟩ := hqueued' path hpath
    exact ⟨p, List.mem_append_right _ hp, hputs⟩

/-- One source is one part. -/
theorem parted_lower {s : Source} {d d' : Draft} (hmark : d.buffer.mark = none)
    (hrun : s.lower d = .ok () d') : ∃ p : Part, p.before = d ∧ p.after = d' ∧ Parted [s] d [p] d' ∧
      Queues [p] d d' ∧ d'.buffer.mark = none := by
  obtain ⟨steps, hlowered, hmark'⟩ := exists_part hmark hrun
  refine ⟨⟨s, d, d', steps⟩, rfl, rfl,
    ⟨⟨⟨_, rfl⟩, _, rfl⟩, rfl, List.forall_mem_singleton.mpr hlowered⟩, ?_, hmark'⟩
  obtain hpending | ⟨path, hputs⟩ := pending_of_lower hmark hrun steps
  · exact ⟨[], by rw [hpending, List.append_nil], nofun⟩
  · exact ⟨[path], (congrArg Array.toList hputs.pending).trans Array.toList_push,
      List.forall_mem_singleton.mpr ⟨_, List.mem_singleton_self _, hputs⟩⟩

theorem parted_forM {ss : List Source} {d d' : Draft} (hmark : d.buffer.mark = none)
    (hrun : ss.forM Source.lower d = .ok () d') :
    ∃ parts, Parted ss d parts d' ∧ Queues parts d d' ∧ d'.buffer.mark = none := by
  induction ss generalizing d with
  | nil =>
    cases hrun
    exact ⟨[], ⟨⟨_, rfl⟩, rfl, by simp⟩, ⟨[], by simp⟩, hmark⟩
  | cons s ss ih =>
    obtain ⟨_, d₁, h₁, hrun⟩ := Step.bind_eq_ok.mp hrun
    obtain ⟨p, -, -, hp, hqueue, hmark₁⟩ := parted_lower hmark h₁
    obtain ⟨parts, hparts, hqueues, hmark'⟩ := ih hmark₁ hrun
    exact ⟨[p] ++ parts, hp.append hparts, hqueue.trans hqueues, hmark'⟩

/-! ### Methods -/

/-- What comes before the code of a method: its constants, and the labels that operations name. -/
def Lower.preparation (constants : List DataConstant) (ops : List Operation) : Lower Unit := do
  addConstants constants
  reserveLabels (labelCount ops)

theorem does_preparation {C : Context} {e : Effect} (constants : List DataConstant)
    (ops : List Operation) :
    Does C e (preparation constants ops) :=
  (does_addConstants constants).andThen fun _ => does_action (.reserve (labelCount ops)) trivial rfl

/-- All of a method but its completion. -/
def Lower.body (constants : List DataConstant) (ops : List Operation) : Lower Unit := do
  preparation constants ops
  Lower.prologue
  ops.forM Lower.operation
  slowPaths
  slowPaths

theorem body_eq (constants : List DataConstant) (ops : List Operation) :
    body constants ops = preparation constants ops >>= fun _ =>
      (Source.prologue :: ops.map .operation).forM Source.lower >>= fun _ =>
      slowPaths >>= fun _ => slowPaths := by
  rw [List.forM_eq_forM, List.forM_cons, List.forM_map, bind_assoc]
  rfl

/-- The code that was put off, from the queue. -/
theorem slowPaths_eq_ok {d d' : Draft} (hrun : slowPaths d = .ok () d') :
    (d.pending.toList.map Source.slowPath).forM Source.lower
      { d with pending := #[] } = .ok () d' := by
  rw [List.forM_eq_forM, List.forM_map]
  exact hrun

theorem parted_slowPaths {d d' : Draft} (hmark : d.buffer.mark = none)
    (hrun : slowPaths d = .ok () d') :
    ∃ parts, Parted (d.pending.toList.map .slowPath) d parts d' ∧ d'.pending = #[] ∧
      d'.buffer.mark = none := by
  obtain ⟨parts, hparts, ⟨paths, hpaths, hqueued⟩, hmark'⟩ :=
    parted_forM (d := { d with pending := #[] }) hmark (slowPaths_eq_ok hrun)
  refine ⟨parts, ⟨hparts.chain.queue, hparts.sources, hparts.lowered⟩, ?_, hmark'⟩
  -- Parts that are put off themselves put nothing off.
  have hnone : paths = [] := by
    refine List.eq_nil_iff_forall_not_mem.mpr fun path hpath => ?_
    obtain ⟨p, hp, ⟨op, hop, -⟩, -⟩ := hqueued path hpath
    have hmem : p.source ∈ d.pending.toList.map Source.slowPath :=
      hparts.sources ▸ List.mem_map_of_mem hp
    rw [hop] at hmem
    simp at hmem
  rw [hnone] at hpaths
  exact Array.toList_inj.mp hpaths

/-- A method consists of its prologue, its operations and the code that they put off; `p` is the
part of the source `s`. -/
theorem exists_parts {constants : List DataConstant} {ops : List Operation} {d d₁ e d' : Draft}
    {pre post : List Source} {s : Source} (hmark : d₁.buffer.mark = none)
    (hpending : d₁.pending = #[]) (hprepare : preparation constants ops d = .ok () d₁)
    (hsources : .prologue :: ops.map .operation = pre ++ s :: post)
    (hfront : pre.forM Source.lower d₁ = .ok () e) (hrun : body constants ops d = .ok () d') :
    ∃ (front back : List Part) (p : Part) (paths : List SlowPath), p.before = e ∧ p.source = s ∧
      Parted (.prologue :: ops.map .operation ++ paths.map .slowPath) d₁ (front ++ p :: back) d' ∧
      ∀ path ∈ paths, ∃ q ∈ front ++ p :: back, q.Enqueues path := by
  rw [body_eq, Step.bind_of_ok hprepare, hsources] at hrun
  obtain ⟨_, d₂, h₂, hrun⟩ := Step.bind_eq_ok.mp hrun
  rw [List.forM_eq_forM, List.forM_append] at h₂
  obtain ⟨_, e', he', h₂⟩ := Step.bind_eq_ok.mp h₂
  cases hfront.symm.trans he'
  rw [List.forM_cons] at h₂
  obtain ⟨_, e₁, hlower, h₂⟩ := Step.bind_eq_ok.mp h₂
  obtain ⟨_, d₃, h₃, h₄⟩ := Step.bind_eq_ok.mp hrun
  obtain ⟨front, hparts, hqueues, hmark⟩ := parted_forM hmark hfront
  obtain ⟨p, hbefore, -, hp, hqueue, hmark₁⟩ := parted_lower hmark hlower
  obtain ⟨back, hback, hqueues', hmark₂⟩ := parted_forM hmark₁ h₂
  obtain ⟨slow, hslow, hpending₃, hmark₃⟩ := parted_slowPaths hmark₂ h₃
  obtain ⟨rest, hrest, -, -⟩ := parted_slowPaths hmark₃ h₄
  obtain ⟨paths, hpaths, hqueued⟩ := hqueues.trans (hqueue.trans hqueues')
  rw [hpaths, hpending] at hslow
  rw [hpending₃] at hrest
  have hsource : p.source = s := List.singleton_inj.mp hp.sources
  refine ⟨front, back ++ (slow ++ rest), p, paths, hbefore, hsource, ?_, fun path hpath => ?_⟩
  · rw [hsources]
    have := hparts.append (hp.append (hback.append (hslow.append hrest)))
    simpa using this
  · obtain ⟨q, hq, hputs⟩ := hqueued path hpath
    refine ⟨q, ?_, hputs⟩
    simp only [List.mem_append, List.mem_cons] at hq ⊢
    tauto

end MachineCode
