import MachineCode.Proofs.Effects.Runs

/-! What the journal counts. Lowering itself counts nothing: an operation is counted when it has
been lowered, and so is code that was put off. -/
namespace MachineCode

open X64 Lower

variable {α β : Type}

/-- Operations, and code that was put off. -/
def Journal.counts (j : Journal) : Nat × Nat := (j.ops, j.slowPaths)

@[simp] theorem Journal.counts_finished (j : Journal) (code : List UInt8) (dataSize : Nat) :
    (j.finished code dataSize).counts = j.counts := by
  unfold Journal.finished
  dsimp only
  split <;> rfl

/-- The step counts nothing. -/
def Uncounted (x : Lower α) : Prop :=
  ∀ d a d', x d = .ok a d' → d'.journal.counts = d.journal.counts

section

variable {x : Lower α}

theorem uncounted_of_same (h : ∀ d a d', x d = .ok a d' → d'.journal = d.journal) : Uncounted x :=
  fun d a d' hrun => congrArg Journal.counts (h d a d' hrun)

theorem Uncounted.bind {f : α → Lower β} (hx : Uncounted x) (hf : ∀ a, Uncounted (f a)) :
    Uncounted (x >>= f) := by
  intro d b d'' hrun
  obtain ⟨a, d', hx', hf'⟩ := Step.bind_eq_ok.mp hrun
  exact (hf a d' b d'' hf').trans (hx d a d' hx')

theorem Uncounted.discard (hx : Uncounted x) : Uncounted (discard x) := by
  intro d u d' hrun
  obtain ⟨a, hrun⟩ := Step.discard_eq_ok.mp hrun
  exact hx d a d' hrun

theorem uncounted_pure (a : α) : Uncounted (pure a : Lower α) :=
  uncounted_of_same fun _ _ _ h => by cases h; rfl

theorem uncounted_get : Uncounted get := uncounted_of_same fun _ _ _ h => by cases h; rfl

theorem uncounted_position : Uncounted position := uncounted_get.bind fun _ => uncounted_pure _

theorem uncounted_modify {f : Draft → Draft} (hf : ∀ d, (f d).journal.counts = d.journal.counts) :
    Uncounted (modify f) := fun d _ _ h => by cases h; exact hf d

theorem uncounted_throw (err : Error) : Uncounted (throw err : Lower α) :=
  fun _ _ _ hrun => absurd hrun Step.throw_ne_ok

theorem uncounted_onBuffer (y : BufferStep α) : Uncounted (onBuffer y) :=
  uncounted_of_same fun _ _ _ h => by
    obtain ⟨b, -, rfl⟩ := onBuffer_eq_ok.mp h
    rfl

theorem uncounted_emitBytes (bytes : List UInt8) : Uncounted (emitBytes bytes) :=
  uncounted_onBuffer _

theorem uncounted_onData (f : DataSection → α × DataSection) : Uncounted (onData f) :=
  uncounted_of_same fun _ _ _ h => by
    obtain ⟨-, rfl⟩ := onData_eq_ok.mp h
    rfl

theorem uncounted_record (f : RecordStep Unit) : Uncounted (record f) :=
  uncounted_of_same fun _ _ _ h => by
    obtain ⟨t, -, rfl⟩ := record_eq_ok.mp h
    rfl

theorem uncounted_log (event : Event) : Uncounted (log event) := uncounted_modify fun _ => rfl

theorem uncounted_forM {γ : Type} {xs : List γ} {f : γ → Lower Unit}
    (hf : ∀ a ∈ xs, Uncounted (f a)) :
    Uncounted (xs.forM f) := by
  induction xs with
  | nil => exact uncounted_pure ()
  | cons a xs ih =>
    obtain ⟨ha, hxs⟩ := List.forall_mem_cons.mp hf
    exact Uncounted.bind ha fun _ => ih hxs

end

theorem uncounted_emitAt (l : Location) (i : Mem → Instr) : Uncounted (emitAt l i) :=
  uncounted_of_same fun d pc d' hrun => by
    obtain ⟨-, t, rfl, -⟩ := emitAt_eq_ok hrun
    rfl

theorem uncounted_emitLinked (i : Instr) (f : Nat → RecordStep Unit) :
    Uncounted (emitLinked i f) :=
  uncounted_of_same fun d u d' hrun => by
    obtain ⟨t, -, rfl⟩ := emitLinked_eq_ok hrun
    rfl

theorem Emission.uncounted (x : Emission) : Uncounted x.perform := by
  cases x with
  | emit i => exact uncounted_emitBytes _
  | «at» l i => exact (uncounted_emitAt l i).discard

theorem uncounted_bind (l : Label) : Uncounted (Lower.bind l) := by
  refine (uncounted_onBuffer _).bind fun fresh => ?_
  cases fresh with
  | true => exact uncounted_position.bind fun _ => uncounted_log _
  | false => exact uncounted_pure ()

theorem Trailer.uncounted (x : Trailer) : Uncounted x.perform := by
  cases x with
  | none => exact uncounted_pure ()
  | store x => exact x.uncounted
  | bind l => exact uncounted_bind l
  | refuse err => exact uncounted_throw err

theorem uncounted_recordCall (start : Nat) (target : Option CallTarget) (info : Option DebugInfo)
    (direct : Bool) : Uncounted (recordCall start target info direct) := by
  refine uncounted_position.bind fun pc => (uncounted_record _).bind fun _ => ?_
  cases info with
  | none => exact uncounted_pure ()
  | some info => exact uncounted_record _

theorem uncounted_nopAfterCall : Uncounted nopAfterCall := by
  refine uncounted_get.bind fun d => ?_
  split
  · exact uncounted_emitBytes _
  · exact uncounted_pure ()

/-- No action counts but the one that is there to count. -/
theorem Action.uncounted {a : Action} (h : ∀ f, a ≠ .report f) : Uncounted a.perform := by
  unfold Action.perform
  cases a with
  | instr x => exact x.uncounted
  | embed o dst => exact uncounted_emitLinked _ _
  | slot o =>
    refine (uncounted_onData _).bind fun r => ?_
    dsimp only
    split
    · exact uncounted_record _
    · exact uncounted_pure ()
  | constant bytes align => exact (uncounted_onData _).discard
  | reserve count => exact uncounted_onBuffer _
  | fresh n => exact Uncounted.discard (uncounted_of_same fun _ _ _ h => by cases h; rfl)
  | bind l => exact uncounted_bind l
  | jump cond l => cases cond <;> exact uncounted_onBuffer _
  | jumpShort cond l => exact uncounted_onBuffer _
  | pad n | raw bytes => exact uncounted_emitBytes _
  | table low high targets =>
    exact (uncounted_emitBytes _).bind fun _ =>
      (uncounted_position.bind fun _ => uncounted_emitBytes _).bind fun _ =>
      uncounted_position.bind fun _ =>
        (uncounted_forM fun _ _ => uncounted_onBuffer _).bind fun _ =>
      uncounted_record _
  | directCall target info =>
    exact uncounted_position.bind fun _ => (uncounted_emitLinked _ _).bind fun _ =>
      (uncounted_recordCall _ _ _ _).bind fun _ => uncounted_nopAfterCall
  | indirectCall r target info =>
    exact uncounted_position.bind fun _ => (uncounted_emitBytes _).bind fun _ =>
      (uncounted_recordCall _ _ _ _).bind fun _ => uncounted_nopAfterCall
  | safepoint info =>
    exact uncounted_position.bind fun _ => (uncounted_record _).bind fun _ => uncounted_emitBytes _
  | trap x after info =>
    exact uncounted_position.bind fun _ => x.uncounted.bind fun _ => after.uncounted.bind fun _ =>
      (uncounted_record _).bind fun _ => uncounted_record _
  | mark id => exact uncounted_position.bind fun _ => uncounted_record _
  | enqueue | log event | name op => exact uncounted_modify fun _ => rfl
  | report f => exact absurd rfl (h f)
  | refuse err => exact uncounted_throw err

/-- A step that is made of actions counts nothing where its effect allows no counting. -/
theorem Lowers.counts_eq {C : Context} {e : Effect} {x : Lower α} {p : α → Prop} {d d' : Draft}
    {a : α} (hx : Lowers C e x p) (he : ¬ e.accounts) (hd : C.Holds d) (hrun : x d = .ok a d') :
    d'.journal.counts = d.journal.counts := by
  obtain ⟨-, -, as, has, hperform⟩ := hx.run hd hrun
  have hall : Uncounted (performAll as) := uncounted_forM fun a ha => by
    refine Action.uncounted fun f hf => ?_
    subst hf
    exact he (has _ ha)
  exact hall d () d' hperform

end MachineCode
