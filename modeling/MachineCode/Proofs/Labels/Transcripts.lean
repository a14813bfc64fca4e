import MachineCode.Proofs.Effects.Methods
import MachineCode.Proofs.Labels.Resolved

/-! Transcripts: what lowering does to the code buffer, as operations on the buffer. Those of a step
that is made of actions use no labels but the ones that the effect of the actions allows. -/
namespace MachineCode

open X64 Lower

variable {α β : Type} {e : Effect}

namespace BufferOp

/-- The label that an operation refers to. -/
def refers? : BufferOp → Option Label
  | rel8 l | rel32 l | tableEntry l _ | jmp l | jcc _ l | jmpShort l | jccShort _ l => some l
  | emit _ | newLabel | reserve _ | bind _ => none

/-- The effect allows the labels of the operation. -/
structure Within (e : Effect) (op : BufferOp) : Prop where
  binds : ∀ l, op = bind l → e.binds l
  refers : ∀ l, op.refers? = some l → e.refers l

theorem within_emit (bytes : List UInt8) : (emit bytes).Within e := ⟨nofun, nofun⟩

theorem within_newLabel : newLabel.Within e := ⟨nofun, nofun⟩

theorem within_reserve (count : Nat) : (reserve count).Within e := ⟨nofun, nofun⟩

theorem within_bind {l : Label} (h : e.binds l) : (bind l).Within e :=
  ⟨fun _ hl => by cases hl; exact h, nofun⟩

theorem within_of_refers {op : BufferOp} {l : Label} (hop : op.refers? = some l) (h : e.refers l) :
    op.Within e where
  binds m hm := by
    subst hm
    cases hop
  refers m hm := by
    cases hop.symm.trans hm
    exact h

/-! ### Labels of a buffer -/

variable {op : BufferOp} {ops : List BufferOp} {b b' : CodeBuffer} {l : Label}

theorem grows_discard {x : BufferStep α} (hx : CodeBuffer.Grows x) :
    CodeBuffer.Grows (discard x) := by
  have hmap : discard x = x >>= fun _ => pure () := map_eq_pure_bind _ x
  rw [hmap]
  exact hx.bind fun _ => CodeBuffer.grows_pure ()

theorem grows_run (op : BufferOp) : CodeBuffer.Grows op.run := by
  cases op with
  | emit bs => exact CodeBuffer.grows_emit bs
  | newLabel =>
    exact CodeBuffer.grows_of_ok (fun _ => rfl) (fun b => by simp [CodeBuffer.newLabel])
      (fun _ => rfl) fun _ => Nat.le_refl _
  | reserve count => exact CodeBuffer.grows_reserveLabels count
  | rel8 l | rel32 l | tableEntry l base => exact CodeBuffer.grows_reference l _
  | jmp l | jcc cond l => exact CodeBuffer.grows_branch _ _ l
  | jmpShort l | jccShort cond l =>
    exact (CodeBuffer.grows_emit _).bind fun _ => CodeBuffer.grows_reference l _
  | bind l => exact grows_discard (CodeBuffer.grows_bind l)

theorem labels_le_of_runAll (h : runAll ops b = .ok () b') : b.labels.size ≤ b'.labels.size :=
  (CodeBuffer.grows_forM grows_run).labels b () b' h

theorem position_le_of_runAll (h : runAll ops b = .ok () b') : b.position ≤ b'.position :=
  (CodeBuffer.grows_forM grows_run).position b () b' h

/-- A bound label is one of the buffer's. -/
theorem lt_of_labelOffset {p : Nat} (h : b.labelOffset l = some p) : l.index < b.labels.size := by
  unfold CodeBuffer.labelOffset at h
  split at h
  · rename_i hl
    exact (Array.getElem?_eq_some_iff.mp hl).1
  · cases h

/-- So is a label that a field refers to. -/
theorem lt_of_site {ps : List Piece} {s : ReferenceSite} (h : Written ps b)
    (hs : s ∈ Piece.sites l 0 ps) : l.index < b.labels.size := by
  cases hl : b.labelOffset l with
  | some p => exact lt_of_labelOffset hl
  | none =>
    rw [← h.pending l hl] at hs
    unfold CodeBuffer.pendingSites at hs
    split at hs
    · rename_i hsites
      exact (Array.getElem?_eq_some_iff.mp hsites).1
    · simp at hs

theorem lt_of_reserveLabels (h : CodeBuffer.reserveLabels (l.index + 1) b = .ok () b') :
    l.index < b'.labels.size := by
  cases CodeBuffer.reserveLabels_eq_ok h
  exact CodeBuffer.lt_size_withLabels b l.index

theorem lt_of_reference {kind : ReferenceKind} (h : CodeBuffer.reference l kind b = .ok () b') :
    l.index < b'.labels.size := by
  have hgrows := (CodeBuffer.grows_reference l kind).labels b () b' h
  unfold CodeBuffer.reference at h
  rw [Step.get_bind] at h
  cases hl : b.labelOffset l with
  | some p => exact Nat.lt_of_lt_of_le (lt_of_labelOffset hl) hgrows
  | none =>
    rw [hl] at h
    obtain ⟨_, c, hc, h⟩ := Step.bind_eq_ok.mp h
    obtain ⟨_, c', hreserve, hc⟩ := Step.bind_eq_ok.mp hc
    cases Step.modify_eq_ok.mp hc
    cases h
    simpa [CodeBuffer.append] using lt_of_reserveLabels hreserve

theorem lt_of_branch {short : UInt8} {long : List UInt8}
    (h : CodeBuffer.branch short long l b = .ok () b') : l.index < b'.labels.size := by
  have hgrows := (CodeBuffer.grows_branch short long l).labels b () b' h
  unfold CodeBuffer.branch at h
  rw [Step.get_bind] at h
  cases hreach : b.shortReach? l with
  | some d =>
    obtain ⟨p, hp, -⟩ := shortReach?_isSome.mp (Option.isSome_of_eq_some hreach)
    exact Nat.lt_of_lt_of_le (lt_of_labelOffset hp) hgrows
  | none =>
    rw [hreach] at h
    obtain ⟨_, c, -, h⟩ := Step.bind_eq_ok.mp h
    exact lt_of_reference h

/-- A label that an operation uses is one of the buffer's afterwards. -/
theorem lt_of_run (hr : op.run b = .ok () b') (hl : op = bind l ∨ op.refers? = some l) :
    l.index < b'.labels.size := by
  cases op with
  | bind m =>
    obtain hl | hl := hl
    · cases hl
      obtain ⟨fresh, hr⟩ := Step.discard_eq_ok.mp hr
      obtain ⟨rest, hbind, hrest⟩ := CodeBuffer.bind_eq_reserve l
      rw [hbind] at hr
      obtain ⟨_, c, hc, hr⟩ := Step.bind_eq_ok.mp hr
      exact Nat.lt_of_lt_of_le (lt_of_reserveLabels hc) (hrest.labels c fresh b' hr)
    · cases hl
  | rel8 m | rel32 m | tableEntry m base =>
    obtain hl | hl := hl <;> cases hl
    exact lt_of_reference hr
  | jmp m | jcc cond m =>
    obtain hl | hl := hl <;> cases hl
    exact lt_of_branch hr
  | jmpShort m | jccShort cond m =>
    obtain hl | hl := hl <;> cases hl
    obtain ⟨_, c, -, hr⟩ := Step.bind_eq_ok.mp hr
    exact lt_of_reference hr
  | emit | newLabel | reserve => obtain hl | hl := hl <;> cases hl

theorem lt_of_runAll (hr : runAll ops b = .ok () b') (hop : op ∈ ops)
    (hl : op = bind l ∨ op.refers? = some l) : l.index < b'.labels.size := by
  obtain ⟨pre, post, rfl⟩ := List.append_of_mem hop
  obtain ⟨c, -, hr⟩ := runAll_append.mp hr
  obtain ⟨c', hc', hr⟩ := runAll_cons.mp hr
  exact Nat.lt_of_lt_of_le (lt_of_run hc' hl) (labels_le_of_runAll hr)

end BufferOp

/-! ### Steps as runs of the buffer -/

/-- Between two instructions, the step does to the buffer what certain operations do whose labels
`e` allows. -/
def Transcribed (e : Effect) (x : Lower α) : Prop :=
  ∀ d a d', d.buffer.mark = none → x d = .ok a d' → d'.buffer.mark = none ∧
    ∃ ops, BufferOp.runAll ops d.buffer = .ok () d'.buffer ∧ ∀ op ∈ ops, op.Within e

section Rules

variable {x : Lower α}

theorem transcribed_of_same (h : ∀ d a d', x d = .ok a d' → d'.buffer = d.buffer) :
    Transcribed e x := by
  intro d a d' hmark hrun
  rw [h d a d' hrun]
  exact ⟨hmark, [], rfl, by simp⟩

theorem Transcribed.bind {f : α → Lower β} (hx : Transcribed e x) (hf : ∀ a, Transcribed e (f a)) :
    Transcribed e (x >>= f) := by
  intro d b d'' hmark hrun
  obtain ⟨a, d', hx', hf'⟩ := Step.bind_eq_ok.mp hrun
  obtain ⟨hmark', ops, hops, hwithin⟩ := hx d a d' hmark hx'
  obtain ⟨hmark'', ops', hops', hwithin'⟩ := hf a d' b d'' hmark' hf'
  exact ⟨hmark'', ops ++ ops', BufferOp.runAll_append.mpr ⟨_, hops, hops'⟩,
    List.forall_mem_append.mpr ⟨hwithin, hwithin'⟩⟩

theorem Transcribed.discard (hx : Transcribed e x) : Transcribed e (discard x) := by
  intro d u d' hmark hrun
  obtain ⟨a, hrun⟩ := Step.discard_eq_ok.mp hrun
  exact hx d a d' hmark hrun

theorem transcribed_pure (a : α) : Transcribed e (pure a) :=
  transcribed_of_same fun _ _ _ h => by cases h; rfl

theorem transcribed_get : Transcribed e get := transcribed_of_same fun _ _ _ h => by cases h; rfl

theorem transcribed_position : Transcribed e position :=
  transcribed_get.bind fun _ => transcribed_pure _

theorem transcribed_modify {f : Draft → Draft} (hf : ∀ d, (f d).buffer = d.buffer) :
    Transcribed e (modify f) :=
  transcribed_of_same fun _ _ _ h => by cases h; exact hf _

theorem transcribed_throw (err : Error) : Transcribed e (throw err : Lower α) :=
  fun _ _ _ _ hrun => absurd hrun Step.throw_ne_ok

theorem transcribed_record (f : RecordStep Unit) : Transcribed e (record f) :=
  transcribed_of_same fun _ _ _ h => by
    obtain ⟨t, -, rfl⟩ := record_eq_ok.mp h
    rfl

theorem transcribed_onData (f : DataSection → α × DataSection) : Transcribed e (onData f) :=
  transcribed_of_same fun _ _ _ h => by
    obtain ⟨-, rfl⟩ := onData_eq_ok.mp h
    rfl

/-- A step on the buffer that is an operation, up to its result. -/
theorem transcribed_onBuffer {x : BufferStep α} {op : BufferOp} (hop : op.Within e)
    (hx : discard x = op.run) : Transcribed e (onBuffer x) := by
  intro d a d' hmark hrun
  obtain ⟨b, hb, rfl⟩ := onBuffer_eq_ok.mp hrun
  have hrun' : op.run d.buffer = .ok () b := by
    rw [← hx]
    exact Step.discard_of_ok hb
  refine ⟨((BufferOp.grows_run op).mark _ _ _ hrun').trans hmark, [op], ?_, by simpa using hop⟩
  exact BufferOp.runAll_cons.mpr ⟨b, hrun', rfl⟩

theorem transcribed_forM {γ : Type} {xs : List γ} {f : γ → Lower Unit}
    (hf : ∀ a ∈ xs, Transcribed e (f a)) : Transcribed e (xs.forM f) := by
  induction xs with
  | nil => exact transcribed_pure ()
  | cons a xs ih =>
    exact Transcribed.bind (hf a (by simp)) fun _ => ih fun b hb => hf b (by simp [hb])

end Rules

/-! ### Actions -/

theorem transcribed_emitBytes (bytes : List UInt8) : Transcribed e (emitBytes bytes) :=
  transcribed_onBuffer (BufferOp.within_emit bytes) rfl

/-- An instruction with a field for which the buffer is marked meanwhile. -/
theorem transcribed_append {d d' : Draft} {bytes : List UInt8} (hmark : d.buffer.mark = none)
    (h : d'.buffer = { d.buffer.append bytes with mark := none }) :
    d'.buffer.mark = none ∧
      ∃ ops, BufferOp.runAll ops d.buffer = .ok () d'.buffer ∧ ∀ op ∈ ops, op.Within e := by
  have hsame : d'.buffer = d.buffer.append bytes := by
    rw [h, ← hmark]
    rfl
  refine ⟨by rw [h], [.emit bytes], ?_, by simpa using BufferOp.within_emit bytes⟩
  rw [hsame]
  rfl

theorem transcribed_emitAt (l : Location) (i : Mem → Instr) : Transcribed e (emitAt l i) := by
  intro d pc d' hmark hrun
  obtain ⟨-, t, rfl, -⟩ := emitAt_eq_ok hrun
  exact transcribed_append hmark rfl

theorem transcribed_emitLinked (i : Instr) (f : Nat → RecordStep Unit) :
    Transcribed e (emitLinked i f) := by
  intro d u d' hmark hrun
  obtain ⟨t, -, rfl⟩ := emitLinked_eq_ok hrun
  exact transcribed_append hmark rfl

theorem Emission.transcribed (x : Emission) : Transcribed e x.perform := by
  cases x with
  | emit i => exact transcribed_emitBytes _
  | «at» l i => exact (transcribed_emitAt l i).discard

theorem transcribed_bind {l : Label} (hl : e.binds l) : Transcribed e (Lower.bind l) := by
  refine (transcribed_onBuffer (BufferOp.within_bind hl) rfl).bind fun fresh => ?_
  cases fresh with
  | true => exact transcribed_position.bind fun _ => transcribed_modify fun _ => rfl
  | false => exact transcribed_pure ()

theorem Trailer.transcribed {x : Trailer} (hx : x.Within e) : Transcribed e x.perform := by
  cases x with
  | none => exact transcribed_pure ()
  | store x => exact x.transcribed
  | bind l => exact transcribed_bind hx
  | refuse err => exact transcribed_throw err

theorem transcribed_recordCall (start : Nat) (target : Option CallTarget) (info : Option DebugInfo)
    (direct : Bool) : Transcribed e (recordCall start target info direct) := by
  refine transcribed_position.bind fun pc => (transcribed_record _).bind fun _ => ?_
  cases info with
  | none => exact transcribed_pure ()
  | some info => exact transcribed_record _

theorem transcribed_nopAfterCall : Transcribed e nopAfterCall := by
  refine transcribed_get.bind fun d => ?_
  split
  · exact transcribed_emitBytes _
  · exact transcribed_pure ()

/-- `n` new labels, one after the other. -/
theorem runAll_newLabels (b : CodeBuffer) (n : Nat) :
    BufferOp.runAll (List.replicate n .newLabel) b = .ok () (b.newLabels n).2 := by
  induction n generalizing b with
  | zero => simp [BufferOp.runAll, CodeBuffer.newLabels, pure, EStateM.pure]
  | succ n ih =>
    have hlabels : b.labels.push (.unbound #[]) ++ Array.replicate n (.unbound #[]) =
        b.labels ++ Array.replicate (n + 1) (.unbound #[]) :=
      Array.toList_inj.mp (by simp [List.replicate_succ])
    refine BufferOp.runAll_cons.mpr ⟨b.newLabel.2, rfl, (ih _).trans ?_⟩
    simp only [CodeBuffer.newLabels, CodeBuffer.newLabel, hlabels]

theorem transcribed_newLabels (n : Nat) : Transcribed e (newLabels n) := by
  intro d ls d' hmark hrun
  cases hrun
  refine ⟨hmark, List.replicate n .newLabel, runAll_newLabels d.buffer n, fun op hop => ?_⟩
  rw [List.eq_of_mem_replicate hop]
  exact BufferOp.within_newLabel

theorem Action.transcribed {a : Action} (ha : a.Within e) : Transcribed e a.perform := by
  have hrefers : ∀ {x : BufferStep Unit} {op : BufferOp} {l : Label}, e.refers l →
      op.refers? = some l → x = op.run → Transcribed e (onBuffer x) := fun hl hop hx =>
    transcribed_onBuffer (BufferOp.within_of_refers hop hl) (hx ▸ funext (Step.discard_unit _))
  unfold Action.perform
  cases a with
  | instr x => exact x.transcribed
  | embed o dst => exact transcribed_emitLinked _ _
  | slot o =>
    refine (transcribed_onData _).bind fun r => ?_
    dsimp only
    split
    · exact transcribed_record _
    · exact transcribed_pure ()
  | constant bytes align => exact (transcribed_onData _).discard
  | reserve count =>
    exact transcribed_onBuffer (BufferOp.within_reserve count) (funext (Step.discard_unit _))
  | fresh n => exact (transcribed_newLabels n).discard
  | bind l => exact transcribed_bind ha
  | jump cond l =>
    cases cond with
    | none =>
      have hop : (BufferOp.jmp l).refers? = some l := rfl
      exact hrefers ha hop rfl
    | some cond =>
      have hop : (BufferOp.jcc cond l).refers? = some l := rfl
      exact hrefers ha hop rfl
  | jumpShort cond l =>
    have hop : (BufferOp.jccShort cond l).refers? = some l := rfl
    exact hrefers ha hop rfl
  | pad n => exact transcribed_emitBytes _
  | raw bytes => exact transcribed_emitBytes _
  | table low high targets =>
    refine (transcribed_emitBytes _).bind fun _ =>
      (transcribed_position.bind fun _ => transcribed_emitBytes _).bind fun _ =>
      transcribed_position.bind fun p => (transcribed_forM fun l hl => ?_).bind fun _ =>
      transcribed_record _
    have hop : (BufferOp.tableEntry l p).refers? = some l := rfl
    exact hrefers (ha.2.1 l hl) hop rfl
  | directCall target info =>
    exact transcribed_position.bind fun _ => (transcribed_emitLinked _ _).bind fun _ =>
      (transcribed_recordCall _ _ _ _).bind fun _ => transcribed_nopAfterCall
  | indirectCall r target info =>
    exact transcribed_position.bind fun _ => (transcribed_emitBytes _).bind fun _ =>
      (transcribed_recordCall _ _ _ _).bind fun _ => transcribed_nopAfterCall
  | safepoint info =>
    exact transcribed_position.bind fun _ => (transcribed_record _).bind fun _ =>
      transcribed_emitBytes _
  | trap x after info =>
    exact transcribed_position.bind fun _ => x.transcribed.bind fun _ =>
      (Trailer.transcribed ha.2.1).bind fun _ => (transcribed_record _).bind fun _ =>
        transcribed_record _
  | mark id => exact transcribed_position.bind fun _ => transcribed_record _
  | enqueue | log event | report f | name op => exact transcribed_modify fun _ => rfl
  | refuse err => exact transcribed_throw err

/-- A step made of actions has a transcript. -/
theorem Lowers.transcribed {C : Context} {x : Lower α} {p : α → Prop} (hx : Lowers C e x p)
    {d d' : Draft} {a : α} (hd : C.Holds d) (hrun : x d = .ok a d') :
    ∃ ops, BufferOp.runAll ops d.buffer = .ok () d'.buffer ∧ ∀ op ∈ ops, op.Within e := by
  obtain ⟨-, -, as, has, hperform⟩ := hx.run hd hrun
  have hall : Transcribed e (performAll as) :=
    transcribed_forM fun a ha => Action.transcribed (has a ha)
  exact (hall d () d' hd.mark hperform).2

end MachineCode
