import MachineCode.Proofs.Effects.Action
import MachineCode.Proofs.Labels.Written
import MachineCode.Proofs.Steps

/-! Contexts: what stays the same while a method is lowered. Every action leads from a draft of a
context to a draft of the same context. -/
namespace MachineCode

open X64 CodeBuffer

variable {α β : Type}

/-! ### Contexts -/

/-- What stays the same while a method is lowered: its frame and its target. There are at least
`labels` labels. -/
structure Context where
  frame : Frame
  target : Target
  labels : Nat

/-- The draft is one of the context, between two instructions. -/
structure Context.Holds (C : Context) (d : Draft) : Prop where
  frame : d.frame = C.frame
  target : d.target = C.target
  labels : C.labels ≤ d.buffer.labels.size
  mark : d.buffer.mark = none

/-- A draft that has just been started is empty. -/
theorem Draft.start_eq_ok {target : Target} {frame : Frame} {name : String} {id : Option UInt32}
    {d : Draft} (h : Draft.start target frame name id = .ok d) :
    ∃ journal, d = ⟨target, frame, .empty, .empty, .empty, #[], journal, "prologue"⟩ := by
  unfold Draft.start at h
  split at h
  · cases h
  · split at h
    · cases h
      exact ⟨_, rfl⟩
    · cases h

/-- The step leads to drafts of the same context, and puts off no code. -/
def Keeps (x : Lower α) : Prop :=
  ∀ (C : Context) (d : Draft) a d', C.Holds d → x d = .ok a d' →
    C.Holds d' ∧ d'.pending = d.pending

theorem Keeps.bind {x : Lower α} {f : α → Lower β} (hx : Keeps x) (hf : ∀ a, Keeps (f a)) :
    Keeps (x >>= f) := by
  intro C d b d'' hd hrun
  obtain ⟨a, d', hx', hf'⟩ := Step.bind_eq_ok.mp hrun
  obtain ⟨hd', hpending⟩ := hx C d a d' hd hx'
  obtain ⟨hd'', hpending'⟩ := hf a C d' b d'' hd' hf'
  exact ⟨hd'', hpending'.trans hpending⟩

theorem Keeps.discard {x : Lower α} (hx : Keeps x) : Keeps (discard x) := by
  intro C d u d' hd hrun
  obtain ⟨a, hrun⟩ := Step.discard_eq_ok.mp hrun
  exact hx C d a d' hd hrun

theorem keeps_pure (a : α) : Keeps (pure a : Lower α) := by
  intro C d b d' hd hrun
  cases hrun
  exact ⟨hd, rfl⟩

theorem keeps_get : Keeps (get : Lower Draft) := by
  intro C d b d' hd hrun
  cases hrun
  exact ⟨hd, rfl⟩

theorem keeps_throw (e : Error) : Keeps (throw e : Lower α) :=
  fun _ _ _ _ _ hrun => absurd hrun Step.throw_ne_ok

theorem keeps_modify {f : Draft → Draft} (hf : ∀ (C : Context) d, C.Holds d → C.Holds (f d))
    (hpending : ∀ d, (f d).pending = d.pending) : Keeps (modify f) := by
  intro C d b d' hd hrun
  cases hrun
  exact ⟨hf C d hd, hpending d⟩

theorem keeps_forM {xs : List α} {f : α → Lower Unit} (hf : ∀ a, Keeps (f a)) :
    Keeps (xs.forM f) := by
  induction xs with
  | nil => exact keeps_pure ()
  | cons a xs ih => exact Keeps.bind (hf a) fun _ => ih

namespace CodeBuffer

/-- The step on the buffer adds labels and bytes at most, and stays in the instruction being
written. It fails for other reasons than side tables. -/
structure Grows (x : BufferStep α) : Prop where
  labels : ∀ b a b', x b = .ok a b' → b.labels.size ≤ b'.labels.size
  mark : ∀ b a b', x b = .ok a b' → b'.mark = b.mark
  position : ∀ b a b', x b = .ok a b' → b.position ≤ b'.position
  error : ∀ b e b', x b = .error e b' → e.isDuplicate = false

theorem Grows.bind {x : BufferStep α} {f : α → BufferStep β} (hx : Grows x)
    (hf : ∀ a, Grows (f a)) :
    Grows (x >>= f) where
  labels b c b'' hrun := by
    obtain ⟨a, b', hx', hf'⟩ := Step.bind_eq_ok.mp hrun
    exact Nat.le_trans (hx.labels b a b' hx') ((hf a).labels b' c b'' hf')
  mark b c b'' hrun := by
    obtain ⟨a, b', hx', hf'⟩ := Step.bind_eq_ok.mp hrun
    exact ((hf a).mark b' c b'' hf').trans (hx.mark b a b' hx')
  position b c b'' hrun := by
    obtain ⟨a, b', hx', hf'⟩ := Step.bind_eq_ok.mp hrun
    exact Nat.le_trans (hx.position b a b' hx') ((hf a).position b' c b'' hf')
  error b e b'' hrun := by
    obtain hx' | ⟨a, b', -, hf'⟩ := Step.bind_eq_error.mp hrun
    · exact hx.error b e b'' hx'
    · exact (hf a).error b' e b'' hf'

/-- A step that does not fail. -/
theorem grows_of_ok {x : BufferStep α} {a : CodeBuffer → α} {f : CodeBuffer → CodeBuffer}
    (hx : ∀ b, x b = .ok (a b) (f b)) (hlabels : ∀ b, b.labels.size ≤ (f b).labels.size)
    (hmark : ∀ b, (f b).mark = b.mark) (hposition : ∀ b, b.position ≤ (f b).position) :
    Grows x where
  labels b c b' hrun := by
    rw [hx] at hrun
    cases hrun
    exact hlabels b
  mark b c b' hrun := by
    rw [hx] at hrun
    cases hrun
    exact hmark b
  position b c b' hrun := by
    rw [hx] at hrun
    cases hrun
    exact hposition b
  error b e b' hrun := by
    rw [hx] at hrun
    cases hrun

theorem grows_pure (a : α) : Grows (pure a : BufferStep α) :=
  grows_of_ok (fun _ => rfl) (fun _ => Nat.le_refl _) (fun _ => rfl) fun _ => Nat.le_refl _

theorem grows_get : Grows (get : BufferStep CodeBuffer) :=
  grows_of_ok (fun _ => rfl) (fun _ => Nat.le_refl _) (fun _ => rfl) fun _ => Nat.le_refl _

theorem grows_throw {e : Error} (he : e.isDuplicate = false) : Grows (throw e : BufferStep α) where
  labels _ _ _ hrun := absurd hrun Step.throw_ne_ok
  mark _ _ _ hrun := absurd hrun Step.throw_ne_ok
  position _ _ _ hrun := absurd hrun Step.throw_ne_ok
  error b e' b' hrun := by
    cases hrun
    exact he

theorem grows_forM {xs : List α} {f : α → BufferStep Unit} (hf : ∀ a, Grows (f a)) :
    Grows (xs.forM f) := by
  induction xs with
  | nil => exact grows_pure ()
  | cons a xs ih => exact Grows.bind (hf a) fun _ => ih

theorem grows_emit (bytes : List UInt8) : Grows (emit bytes) :=
  grows_of_ok (fun _ => rfl) (fun _ => Nat.le_refl _) (fun _ => rfl) fun b => by simp

theorem grows_reserveLabels (count : Nat) : Grows (reserveLabels count) := by
  have herror : ∀ b e b', reserveLabels count b = .error e b' → e.isDuplicate = false := by
    intro b e b' hrun
    unfold reserveLabels at hrun
    split at hrun
    · cases hrun
      rfl
    · cases hrun
  refine ⟨?_, ?_, ?_, herror⟩ <;> intro b a b' hrun <;> cases reserveLabels_eq_ok hrun
  · simp [CodeBuffer.withLabels]
  · rfl
  · exact Nat.le_refl _

theorem error_displacement32 {v : Int} {e : Error} (h : displacement32 v = .error e) :
    e.isRefusal = true := by
  unfold displacement32 at h
  split at h <;> cases h
  rfl

theorem error_field {site : ReferenceSite} {target : Nat} {e : Error}
    (h : field site target = .error e) : e.isDuplicate = false := by
  unfold field at h
  split at h
  · dsimp only at h
    split at h <;> cases h
    rfl
  · obtain h | ⟨d, -, h⟩ := Step.except_bind_eq_error.mp h
    · exact Error.isDuplicate_of_isRefusal (error_displacement32 h)
    · cases h
  · obtain h | ⟨d, -, h⟩ := Step.except_bind_eq_error.mp h
    · exact Error.isDuplicate_of_isRefusal (error_displacement32 h)
    · cases h

theorem grows_resolve (site : ReferenceSite) (target : Nat) : Grows (resolve site target) := by
  have herror : ∀ b e b', resolve site target b = .error e b' → e.isDuplicate = false := by
    intro b e b' hrun
    unfold resolve at hrun
    split at hrun
    · cases hrun
    · rename_i h
      cases hrun
      exact error_field h
  refine ⟨?_, ?_, ?_, herror⟩ <;> intro b a b' hrun <;> unfold resolve at hrun <;>
    split at hrun <;> cases hrun
  · exact Nat.le_refl _
  · rfl
  · simp [CodeBuffer.position]

/-- Binding a label makes it one of the buffer's first. -/
theorem bind_eq_reserve (l : Label) : ∃ rest : BufferStep Bool,
    CodeBuffer.bind l = (do reserveLabels (l.index + 1); rest) ∧ Grows rest := by
  have hset : ∀ target, Grows (modify fun b : CodeBuffer =>
      { b with labels := b.labels.setIfInBounds l.index (.bound target) }) := fun target =>
    grows_of_ok (fun _ => rfl) (fun b => by simp) (fun _ => rfl) fun _ => Nat.le_refl _
  refine ⟨_, rfl, grows_get.bind fun b => ?_⟩
  split
  · split
    · exact grows_pure _
    · exact grows_throw rfl
  · exact (hset _).bind fun _ => (grows_forM fun site => grows_resolve site _).bind fun _ =>
      grows_pure _
  · exact grows_pure _

theorem grows_bind (l : Label) : Grows (CodeBuffer.bind l) := by
  obtain ⟨rest, hbind, hrest⟩ := bind_eq_reserve l
  rw [hbind]
  exact (grows_reserveLabels _).bind fun _ => hrest

theorem grows_addSite (l : Label) (kind : ReferenceKind) : Grows (addSite l kind) :=
  Grows.bind (grows_reserveLabels _) fun _ =>
    grows_of_ok (fun _ => rfl) (fun b => by simp) (fun _ => rfl) fun _ => Nat.le_refl _

theorem grows_reference (l : Label) (kind : ReferenceKind) : Grows (reference l kind) := by
  unfold reference
  refine grows_get.bind fun b => ?_
  split
  · split
    · exact grows_emit _
    · rename_i h
      exact grows_throw (error_field h)
  · exact (grows_addSite l kind).bind fun _ => grows_emit _

theorem grows_branch (short : UInt8) (long : List UInt8) (l : Label) :
    Grows (branch short long l) := by
  unfold branch
  refine grows_get.bind fun b => ?_
  split
  · exact grows_emit _
  · exact (grows_emit _).bind fun _ => grows_reference l _

end CodeBuffer

namespace Lower

theorem position_eq_ok {d d' : Draft} {p : Nat} :
    position d = .ok p d' ↔ d.buffer.position = p ∧ d = d' := by
  rw [position, Step.get_bind, Step.pure_eq_ok]

theorem ofExcept_eq_ok {x : Except Error α} {d d' : Draft} {a : α} :
    ofExcept x d = .ok a d' ↔ x = .ok a ∧ d = d' := by
  cases x <;> simp [ofExcept]

theorem onBuffer_eq_ok {x : BufferStep α} {d d' : Draft} {a : α} :
    onBuffer x d = .ok a d' ↔ ∃ b, x d.buffer = .ok a b ∧ d' = { d with buffer := b } := by
  simp only [onBuffer]
  cases x d.buffer <;> simp [eq_comm]

theorem record_eq_ok {x : RecordStep Unit} {d d' : Draft} :
    record x d = .ok () d' ↔ ∃ t, x d.tables = .ok () t ∧ d' = { d with tables := t } := by
  simp only [record]
  cases x d.tables <;> simp [eq_comm]

theorem onData_eq_ok {f : DataSection → α × DataSection} {d d' : Draft} {a : α} :
    onData f d = .ok a d' ↔ (f d.data).1 = a ∧ d' = { d with data := (f d.data).2 } := by
  constructor
  · intro h
    cases h
    exact ⟨rfl, rfl⟩
  · rintro ⟨rfl, rfl⟩
    rfl

theorem emitBytes_eq_ok {bytes : List UInt8} {d d' : Draft} :
    emitBytes bytes d = .ok () d' ↔ d' = { d with buffer := d.buffer.append bytes } := by
  rw [emitBytes, onBuffer_eq_ok]
  constructor
  · rintro ⟨b, ⟨⟩, rfl⟩
    rfl
  · rintro rfl
    exact ⟨_, rfl, rfl⟩

/-- What an instruction with a memory operand does when it is emitted. -/
theorem emitAt_eq_ok {l : Location} {i : Mem → Instr} {d d' : Draft} {pc : Nat}
    (hrun : emitAt l i d = .ok pc d') : pc = d.buffer.position ∧ ∃ t,
      d' = { d with
        buffer := { d.buffer.append (i l.mem).encode.bytes with mark := none }
        tables := t } ∧
      (l.data = none → t = d.tables) ∧
      ∀ offset, l.data = some offset → ∃ k, (i l.mem).encode.ripField = some k ∧
        SideTables.recordData pc (pc + k) (pc + (i l.mem).encode.length) offset
          d.tables = .ok () t := by
  unfold emitAt at hrun
  obtain ⟨start, d₁, h₁, hrun⟩ := Step.bind_eq_ok.mp hrun
  obtain ⟨rfl, rfl⟩ := position_eq_ok.mp h₁
  rw [Step.modify_bind] at hrun
  obtain ⟨_, d₂, h₂, hrun⟩ := Step.bind_eq_ok.mp hrun
  cases emitBytes_eq_ok.mp h₂
  cases hd : l.data with
  | none =>
    simp only [hd] at hrun
    rw [Step.modify_bind] at hrun
    obtain ⟨rfl, rfl⟩ := Step.pure_eq_ok.mp hrun
    exact ⟨rfl, d.tables, rfl, fun _ => rfl, by simp⟩
  | some offset =>
    simp only [hd] at hrun
    cases hk : (i l.mem).encode.ripField with
    | none =>
      simp only [hk] at hrun
      obtain ⟨_, _, hthrow, -⟩ := Step.bind_eq_ok.mp hrun
      exact absurd hthrow Step.throw_ne_ok
    | some k =>
      simp only [hk] at hrun
      rw [Step.get_bind] at hrun
      obtain ⟨_, d₃, h₃, hrun⟩ := Step.bind_eq_ok.mp hrun
      obtain ⟨-, rfl⟩ := ofExcept_eq_ok.mp h₃
      obtain ⟨stop, d₄, h₄, hrun⟩ := Step.bind_eq_ok.mp hrun
      obtain ⟨rfl, rfl⟩ := position_eq_ok.mp h₄
      obtain ⟨_, d₅, h₅, hrun⟩ := Step.bind_eq_ok.mp hrun
      obtain ⟨t, ht, rfl⟩ := record_eq_ok.mp h₅
      rw [Step.modify_bind] at hrun
      obtain ⟨rfl, rfl⟩ := Step.pure_eq_ok.mp hrun
      have hstop : (d.buffer.setMark.append (i l.mem).encode.bytes).position =
          d.buffer.position + (i l.mem).encode.length := by
        rw [position_append]
        rfl
      rw [hstop] at ht
      refine ⟨rfl, t, rfl, by simp, ?_⟩
      rintro _ ⟨⟩
      exact ⟨k, rfl, ht⟩

/-- What an instruction with a field for a symbol does when it is emitted. -/
theorem emitLinked_eq_ok {i : Instr} {f : Nat → RecordStep Unit} {d d' : Draft}
    (hrun : emitLinked i f d = .ok () d') :
    ∃ t, f (d.buffer.position + i.linkField?.getD 0) d.tables = .ok () t ∧
      d' = { d with
        buffer := { d.buffer.append i.encode.bytes with mark := none }
        tables := t } := by
  obtain ⟨start, d₁, h₁, hrun⟩ := Step.bind_eq_ok.mp hrun
  obtain ⟨rfl, rfl⟩ := position_eq_ok.mp h₁
  rw [Step.modify_bind] at hrun
  obtain ⟨_, d₂, h₂, hrun⟩ := Step.bind_eq_ok.mp hrun
  cases emitBytes_eq_ok.mp h₂
  rw [Step.get_bind] at hrun
  obtain ⟨_, d₃, h₃, hrun⟩ := Step.bind_eq_ok.mp hrun
  obtain ⟨-, rfl⟩ := ofExcept_eq_ok.mp h₃
  obtain ⟨_, d₄, h₄, hrun⟩ := Step.bind_eq_ok.mp hrun
  obtain ⟨t, ht, rfl⟩ := record_eq_ok.mp h₄
  cases Step.modify_eq_ok.mp hrun
  exact ⟨t, ht, rfl⟩

end Lower

/-! ### The data section grows -/

namespace DataSection

theorem le_alignUp (n align : Nat) : n ≤ alignUp n align := Nat.le_add_right _ _

theorem size_le_constant (s : DataSection) (bytes : List UInt8) (align : Nat) :
    s.size ≤ (s.constant bytes align).2.size := by
  unfold constant
  split
  · exact Nat.le_refl _
  · have := s.size_emitAligned bytes align
    have := le_alignUp s.size align
    simp only [size] at *
    omega

/-- A slot that is new lies behind all that is in the section. -/
theorem objectSlot_bounds (s : DataSection) (o : ObjectId) :
    s.size ≤ (s.objectSlot o).2.size ∧ ((s.objectSlot o).1.2 = true →
      s.size ≤ (s.objectSlot o).1.1 ∧ (s.objectSlot o).1.1 + 8 ≤ (s.objectSlot o).2.size) := by
  unfold objectSlot
  split
  · simp
  · have hsize := s.size_emitAligned (leBytes 8 0) 8
    have hle := le_alignUp s.size 8
    have hoffset : (s.emitAligned (leBytes 8 0) 8).1 = alignUp s.size 8 := rfl
    simp only [size, length_leBytes] at *
    omega

end DataSection

/-! ### Actions keep the context -/

open Lower

theorem keeps_onBuffer {x : BufferStep α} (hx : Grows x) : Keeps (onBuffer x) := by
  intro C d a d' hd hrun
  obtain ⟨b, hb, rfl⟩ := onBuffer_eq_ok.mp hrun
  exact ⟨⟨hd.frame, hd.target, Nat.le_trans hd.labels (hx.labels _ _ _ hb),
    (hx.mark _ _ _ hb).trans hd.mark⟩, rfl⟩

theorem keeps_emitBytes (bytes : List UInt8) : Keeps (emitBytes bytes) :=
  keeps_onBuffer (grows_emit bytes)

theorem keeps_position : Keeps position := keeps_get.bind fun _ => keeps_pure _

theorem keeps_record (x : RecordStep Unit) : Keeps (record x) := by
  intro C d a d' hd hrun
  obtain ⟨t, -, rfl⟩ := record_eq_ok.mp hrun
  exact ⟨⟨hd.frame, hd.target, hd.labels, hd.mark⟩, rfl⟩

theorem keeps_onData (f : DataSection → α × DataSection) : Keeps (onData f) := by
  intro C d a d' hd hrun
  obtain ⟨-, rfl⟩ := onData_eq_ok.mp hrun
  exact ⟨⟨hd.frame, hd.target, hd.labels, hd.mark⟩, rfl⟩

theorem keeps_log (e : Event) : Keeps (log e) :=
  keeps_modify (fun _ _ hd => ⟨hd.frame, hd.target, hd.labels, hd.mark⟩) fun _ => rfl

theorem keeps_emitAt (l : Location) (i : Mem → Instr) : Keeps (emitAt l i) := by
  intro C d a d' hd hrun
  obtain ⟨-, t, rfl, -⟩ := emitAt_eq_ok hrun
  exact ⟨⟨hd.frame, hd.target, hd.labels, rfl⟩, rfl⟩

theorem keeps_emitLinked (i : Instr) (f : Nat → RecordStep Unit) :
    Keeps (emitLinked i f) := by
  intro C d a d' hd hrun
  obtain ⟨t, -, rfl⟩ := emitLinked_eq_ok hrun
  exact ⟨⟨hd.frame, hd.target, hd.labels, rfl⟩, rfl⟩

theorem keeps_newLabels (n : Nat) : Keeps (newLabels n) := by
  intro C d a d' hd hrun
  cases hrun
  refine ⟨⟨hd.frame, hd.target, Nat.le_trans hd.labels ?_, hd.mark⟩, rfl⟩
  simp

theorem keeps_bind (l : Label) : Keeps (Lower.bind l) := by
  unfold Lower.bind
  refine Keeps.bind (keeps_onBuffer (grows_bind l)) fun fresh => ?_
  split
  · exact keeps_position.bind fun _ => keeps_log _
  · exact keeps_pure _

theorem keeps_recordTrap (pc : Nat) (info : DebugInfo) : Keeps (recordTrap pc info) :=
  (keeps_record _).bind fun _ => keeps_record _

theorem keeps_recordCall (start : Nat) (target : Option CallTarget) (info : Option DebugInfo)
    (direct : Bool) : Keeps (recordCall start target info direct) := by
  unfold recordCall
  refine keeps_position.bind fun pc => (keeps_record _).bind fun _ => ?_
  split
  · exact keeps_record _
  · exact keeps_pure _

theorem keeps_nopAfterCall : Keeps nopAfterCall := by
  unfold nopAfterCall
  refine keeps_get.bind fun d => ?_
  split
  · exact keeps_emitBytes _
  · exact keeps_pure _

theorem Emission.keeps (x : Emission) : Keeps x.perform := by
  cases x with
  | emit i => exact keeps_emitBytes _
  | «at» l i => exact (keeps_emitAt l i).discard

theorem Trailer.keeps (x : Trailer) : Keeps x.perform := by
  cases x with
  | none => exact keeps_pure ()
  | store x => exact x.keeps
  | bind l => exact keeps_bind l
  | refuse e => exact keeps_throw e

/-- The code that is put off after an action. -/
def Action.pending (paths : Array SlowPath) : Action → Array SlowPath
  | enqueue path => paths.push path
  | _ => paths

theorem Action.keeps (a : Action) (hqueue : ∀ path, a ≠ .enqueue path) : Keeps a.perform := by
  unfold perform
  cases a with
  | instr x => exact x.keeps
  | embed o dst => exact keeps_emitLinked _ _
  | slot o =>
    refine (keeps_onData _).bind fun r => ?_
    dsimp only
    split
    · exact keeps_record _
    · exact keeps_pure _
  | constant bytes align => exact (keeps_onData _).discard
  | reserve count => exact keeps_onBuffer (grows_reserveLabels count)
  | fresh n => exact (keeps_newLabels n).discard
  | bind l => exact keeps_bind l
  | jump cond l =>
    cases cond with
    | none => exact keeps_onBuffer (grows_branch _ _ l)
    | some cond => exact keeps_onBuffer (grows_branch _ _ l)
  | jumpShort cond l => exact keeps_onBuffer ((grows_emit _).bind fun _ => grows_reference l _)
  | pad n => exact keeps_emitBytes _
  | raw bytes => exact keeps_emitBytes _
  | table low high targets =>
    exact (keeps_emitBytes _).bind fun _ =>
      (keeps_position.bind fun _ => keeps_emitBytes _).bind fun _ =>
      keeps_position.bind fun p =>
        (keeps_forM fun l => keeps_onBuffer (grows_reference l _)).bind fun _ => keeps_record _
  | directCall target info =>
    exact keeps_position.bind fun _ => (keeps_emitLinked _ _).bind fun _ =>
      (keeps_recordCall _ _ _ _).bind fun _ => keeps_nopAfterCall
  | indirectCall r target info =>
    exact keeps_position.bind fun _ => (keeps_emitBytes _).bind fun _ =>
      (keeps_recordCall _ _ _ _).bind fun _ => keeps_nopAfterCall
  | safepoint info =>
    exact keeps_position.bind fun _ => (keeps_record _).bind fun _ => keeps_emitBytes _
  | trap x after info =>
    exact keeps_position.bind fun _ => x.keeps.bind fun _ => after.keeps.bind fun _ =>
      keeps_recordTrap _ info
  | mark id => exact keeps_position.bind fun _ => keeps_record _
  | enqueue path => exact absurd rfl (hqueue path)
  | log event | report f | name op =>
    exact keeps_modify (fun _ _ hd => ⟨hd.frame, hd.target, hd.labels, hd.mark⟩) fun _ => rfl
  | refuse e => exact keeps_throw e

/-- Every action keeps the context. -/
theorem Action.perform_ok {a : Action} {C : Context} {d d' : Draft} (hd : C.Holds d)
    (hrun : a.perform d = .ok () d') : C.Holds d' ∧ d'.pending = a.pending d.pending := by
  by_cases hqueue : ∃ path, a = .enqueue path
  · obtain ⟨path, rfl⟩ := hqueue
    cases hrun
    exact ⟨⟨hd.frame, hd.target, hd.labels, hd.mark⟩, rfl⟩
  · have hkeeps := a.keeps (fun path h => hqueue ⟨path, h⟩) C d () d' hd hrun
    refine ⟨hkeeps.1, hkeeps.2.trans ?_⟩
    cases a with
    | enqueue path => exact absurd ⟨path, rfl⟩ hqueue
    | _ => rfl

theorem performAll_cons (a : Action) (as : List Action) :
    performAll (a :: as) = (do a.perform; performAll as) := List.forM_cons

theorem performAll_cons_eq_ok {a : Action} {as : List Action} {d d'' : Draft} :
    performAll (a :: as) d = .ok () d'' ↔
      ∃ d', a.perform d = .ok () d' ∧ performAll as d' = .ok () d'' := by
  rw [performAll_cons, Step.bind_eq_ok]
  exact ⟨fun ⟨_, d', h⟩ => ⟨d', h⟩, fun ⟨d', h⟩ => ⟨(), d', h⟩⟩

theorem performAll_ok {as : List Action} {C : Context} {d d' : Draft} (hd : C.Holds d)
    (hrun : performAll as d = .ok () d') :
    C.Holds d' ∧ d'.pending = as.foldl Action.pending d.pending := by
  induction as generalizing d with
  | nil =>
    cases hrun
    exact ⟨hd, rfl⟩
  | cons a as ih =>
    obtain ⟨d₁, h₁, hrun⟩ := performAll_cons_eq_ok.mp hrun
    obtain ⟨hd₁, hpending⟩ := Action.perform_ok hd h₁
    obtain ⟨hd', hpending'⟩ := ih hd₁ hrun
    exact ⟨hd', by rw [hpending', List.foldl_cons, hpending]⟩

end MachineCode
