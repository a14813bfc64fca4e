import MachineCode.Proofs.Labels.Parts

/-! The layout of a method. The labels that operations name come first; behind them, each part of
the method has labels of its own. So a label that operations name is bound where it is placed
first. -/
namespace MachineCode

open X64 Lower

/-! ### Numbers of labels -/

theorem le_foldl_max {xs : List Label} {l : Label} (n : Nat) (h : l ∈ xs ∨ l.index < n) :
    l.index < xs.foldl (fun n l => max n (l.index + 1)) n := by
  induction xs generalizing n with
  | nil => simpa using h
  | cons m xs ih =>
    refine ih _ ?_
    obtain h | h := h
    · obtain rfl | h := List.mem_cons.mp h
      · exact .inr (Nat.lt_of_lt_of_le (Nat.lt_succ_self _) (Nat.le_max_right _ _))
      · exact .inl h
    · exact .inr (Nat.lt_of_lt_of_le h (Nat.le_max_left _ _))

/-- A label that an operation names is below the number of labels that are reserved. -/
theorem lt_labelCount {ops : List Operation} {op : Operation} {l : Label} (hop : op ∈ ops)
    (hl : l ∈ op.labels) : l.index < labelCount ops :=
  le_foldl_max 0 (.inl (List.mem_flatMap.mpr ⟨op, hop, hl⟩))

namespace BufferOp

variable {ops pre pre' : List BufferOp} {b b' : CodeBuffer} {l : Label}

/-- The operation behind `pre` makes the label. -/
def Makes (ops pre : List BufferOp) (b : CodeBuffer) (l : Label) : Prop :=
  ∃ post c, ops = pre ++ newLabel :: post ∧ runAll pre b = .ok () c ∧ c.newLabel.1 = l

/-- A label is made once. -/
theorem makes_unique (h : Makes ops pre b l) (h' : Makes ops pre' b l) : pre = pre' := by
  obtain ⟨post, c, hops, hrun, rfl⟩ := h
  obtain ⟨post', c', hops', hrun', hl⟩ := h'
  -- Between two operations that make labels, the number of labels grows.
  have hlt : ∀ {xs ys mid : List BufferOp} {x y : CodeBuffer}, ys = xs ++ newLabel :: mid →
      runAll xs b = .ok () x → runAll ys b = .ok () y → x.labels.size < y.labels.size := by
    rintro xs _ mid x y rfl hx hy
    obtain ⟨x', hx', hy⟩ := runAll_append.mp hy
    cases hx.symm.trans hx'
    obtain ⟨z, hz, hy⟩ := runAll_cons.mp hy
    cases Step.modify_eq_ok.mp hz
    refine Nat.lt_of_lt_of_le ?_ (labels_le_of_runAll hy)
    simp [CodeBuffer.newLabel]
  have hsize : c'.labels.size = c.labels.size := congrArg Label.index hl
  obtain ⟨mid, hpre, hpost⟩ | ⟨mid, hpre, hpost⟩ :=
    List.append_eq_append_iff.mp (hops.symm.trans hops')
  · cases mid with
    | nil => exact (hpre.trans (List.append_nil _)).symm
    | cons op mid =>
      cases hpost
      exact absurd (hlt hpre hrun hrun') (by omega)
  · cases mid with
    | nil => exact hpre.trans (List.append_nil _)
    | cons op mid =>
      cases hpost
      exact absurd (hlt hpre hrun' hrun) (by omega)

end BufferOp

/-! ### Labels of parts -/

variable {d d' : Draft} {p q : Part} {ps qs : List Part} {l : Label}

namespace Chain

theorem split (h : Chain d (ps ++ p :: qs) d') : Chain d ps p.before ∧ Chain p.after qs d' := by
  induction ps generalizing d with
  | nil => exact h
  | cons q ps ih => exact ⟨⟨h.1, (ih h.2).1⟩, (ih h.2).2⟩

/-- Parts in a row are a run of the code buffer. -/
theorem run (h : Chain d ps d') (hps : ∀ p ∈ ps, p.Lowered) :
    BufferOp.runAll (ps.flatMap Part.steps) d.buffer = .ok () d'.buffer := by
  induction ps generalizing d with
  | nil =>
    obtain ⟨queue, rfl⟩ := h
    rfl
  | cons p ps ih =>
    obtain ⟨⟨queue, hbefore⟩, h⟩ := h
    obtain ⟨hp, hps⟩ := List.forall_mem_cons.mp hps
    refine BufferOp.runAll_append.mpr ⟨p.after.buffer, ?_, ih h hps⟩
    have hrun := hp.run
    rw [hbefore] at hrun
    exact hrun

theorem labels_le (h : Chain d ps d') (hps : ∀ p ∈ ps, p.Lowered) :
    d.buffer.labels.size ≤ d'.buffer.labels.size :=
  BufferOp.labels_le_of_runAll (h.run hps)

theorem le_before (h : Chain d ps d') (hps : ∀ p ∈ ps, p.Lowered) (hp : p ∈ ps) :
    d.buffer.labels.size ≤ p.before.buffer.labels.size := by
  obtain ⟨front, back, rfl⟩ := List.append_of_mem hp
  exact h.split.1.labels_le (List.forall_mem_append.mp hps).1

/-- No two parts have labels in common. -/
theorem pairwise_apart (h : Chain d ps d') (hps : ∀ p ∈ ps, p.Lowered) :
    ps.Pairwise fun p q => ∀ l, p.Owns l → ¬ q.Owns l := by
  induction ps generalizing d with
  | nil => exact .nil
  | cons p ps ih =>
    have hps := (List.forall_mem_cons.mp hps).2
    refine .cons (fun q hq l hl hl' => ?_) (ih h.2 hps)
    exact absurd (Nat.lt_of_lt_of_le hl.2 (h.2.le_before hps hq)) (Nat.not_lt.mpr hl'.1)

/-- A label is one part's own. -/
theorem eq_of_owns (h : Chain d ps d') (hps : ∀ p ∈ ps, p.Lowered) (hp : p ∈ ps) (hq : q ∈ ps)
    (hl : p.Owns l) (hl' : q.Owns l) : p = q := by
  have happart := h.pairwise_apart hps
  let Apart (p q : Part) : Prop := p = q ∨ ∀ l, p.Owns l → ¬ q.Owns l
  have hleft : ps.Pairwise Apart := happart.imp fun hpq => .inr hpq
  have hright : ps.Pairwise (flip Apart) :=
    happart.imp fun hpq => Or.inr fun l hl hl' => hpq l hl' hl
  obtain rfl | hapart :=
    List.Pairwise.forall_of_forall_of_flip (fun _ _ => .inl rfl) hleft hright hp hq
  · rfl
  · exact absurd hl' (hapart l hl)

/-- A label that is bound in a row of parts is bound by one of them, and lies in its code. -/
theorem exists_binder {ws : List Piece} {a : Nat} (h : Chain d ps d') (hps : ∀ p ∈ ps, p.Lowered)
    (hw : Written ws d.buffer) (hnone : d.buffer.labelOffset l = none)
    (hl : d'.buffer.labelOffset l = some a) : ∃ q ∈ ps, .bind l ∈ q.steps ∧
      q.before.buffer.position ≤ a ∧ q.after.buffer.labelOffset l = some a := by
  induction ps generalizing d ws with
  | nil =>
    obtain ⟨queue, rfl⟩ := h
    cases hnone.symm.trans hl
  | cons p ps ih =>
    obtain ⟨⟨queue, hbefore⟩, h⟩ := h
    obtain ⟨hp, hps⟩ := List.forall_mem_cons.mp hps
    have hstart : p.before.buffer = d.buffer := by rw [hbefore]
    rw [← hstart] at hw hnone
    obtain ⟨qs, hw', -⟩ := BufferOp.written_runAll hw hp.run
    cases hafter : p.after.buffer.labelOffset l with
    | none =>
      obtain ⟨q, hq, hbinder⟩ := ih h hps hw' hafter
      exact ⟨q, List.mem_cons_of_mem _ hq, hbinder⟩
    | some a' =>
      obtain ⟨-, -, hext⟩ := BufferOp.written_runAll hw' (h.run hps)
      cases (hext l a' hafter).symm.trans hl
      obtain ⟨hmem, hle⟩ := BufferOp.bind_of_labelOffset hw hp.run hnone hafter
      exact ⟨p, List.mem_cons_self, hmem, hle, hafter⟩

end Chain

/-- The code of a part, in its place and put off. -/
def Part.Comprises (p q : Part) : Prop :=
  q = p ∨ ∃ path, p.Enqueues path ∧ q.source = .slowPath path

/-! ### Layouts -/

/-- The parts of a method that starts at `d`, behind the labels that its operations name. -/
structure Layout (ops : List Operation) (paths : List SlowPath) (d : Draft) (parts : List Part)
    (d' : Draft) : Prop
    extends Parted (.prologue :: ops.map .operation ++ paths.map .slowPath) d parts d' where
  start : (BufferOp.reserve (labelCount ops)).run .empty = .ok () d.buffer
  queued : ∀ path ∈ paths, ∃ p ∈ parts, p.PutsOff path

theorem addConstants_eq_ok {constants : List DataConstant} {d d' : Draft}
    (hrun : addConstants constants d = .ok () d') :
    d'.buffer = d.buffer ∧ d'.pending = d.pending := by
  induction constants generalizing d with
  | nil =>
    cases hrun
    exact ⟨rfl, rfl⟩
  | cons c constants ih =>
    obtain ⟨_, d₁, h₁, hrun⟩ := Step.bind_eq_ok.mp hrun
    obtain ⟨a, h₁⟩ := Step.discard_eq_ok.mp h₁
    obtain ⟨offset, d₂, h₂, h₁⟩ := Step.bind_eq_ok.mp h₁
    obtain ⟨-, rfl⟩ := onData_eq_ok.mp h₂
    obtain ⟨d₃, d₄, ⟨⟩, h₁⟩ := Step.bind_eq_ok.mp h₁
    obtain ⟨_, d₅, h₅, h₁⟩ := Step.bind_eq_ok.mp h₁
    cases Step.modify_eq_ok.mp h₅
    cases h₁
    obtain ⟨hbuffer, hpending⟩ := ih hrun
    exact ⟨hbuffer, hpending⟩

/-- In front of the prologue there are the labels that operations name, and nothing else. -/
theorem preparation_eq_ok {target : Target} {frame : Frame} {name : String} {id : Option UInt32}
    {constants : List DataConstant} {ops : List Operation} {d d₁ : Draft}
    (hd : Draft.start target frame name id = .ok d)
    (hrun : preparation constants ops d = .ok () d₁) :
    (BufferOp.reserve (labelCount ops)).run .empty = .ok () d₁.buffer ∧ d₁.pending = #[] := by
  obtain ⟨journal, rfl⟩ := Draft.start_eq_ok hd
  obtain ⟨_, d₀, hconstants, hreserve⟩ := Step.bind_eq_ok.mp hrun
  obtain ⟨hbuffer, hpending⟩ := addConstants_eq_ok hconstants
  obtain ⟨b, hb, rfl⟩ := onBuffer_eq_ok.mp hreserve
  rw [hbuffer] at hb
  exact ⟨hb, hpending⟩

/-- A method that is lowered has a layout, in which `p` is the part of the source `s`. -/
theorem exists_layout_around {target : Target} {frame : Frame} {name : String} {id : Option UInt32}
    {constants : List DataConstant} {ops : List Operation} {d d₁ e d' : Draft}
    {pre post : List Source} {s : Source} (hd : Draft.start target frame name id = .ok d)
    (hprepare : preparation constants ops d = .ok () d₁)
    (hsources : .prologue :: ops.map .operation = pre ++ s :: post)
    (hfront : pre.forM Source.lower d₁ = .ok () e) (hrun : body constants ops d = .ok () d') :
    ∃ (front back : List Part) (p : Part) (paths : List SlowPath), p.before = e ∧ p.source = s ∧
      Layout ops paths d₁ (front ++ p :: back) d' ∧
      ∀ path ∈ paths, ∃ q ∈ front ++ p :: back, q.Enqueues path := by
  obtain ⟨hreserved, hpending⟩ := preparation_eq_ok hd hprepare
  have hmark : d₁.buffer.mark = none := (BufferOp.grows_run _).mark _ _ _ hreserved
  obtain ⟨front, back, p, paths, hbefore, hsource, hparts, hqueued⟩ :=
    exists_parts hmark hpending hprepare hsources hfront hrun
  refine ⟨front, back, p, paths, hbefore, hsource,
    ⟨hparts, hreserved, fun path hpath => ?_⟩, hqueued⟩
  obtain ⟨q, hq, hputs⟩ := hqueued path hpath
  exact ⟨q, hq, hputs.putsOff⟩

/-- A method that is lowered has a layout. -/
theorem exists_layout {target : Target} {frame : Frame} {name : String} {id : Option UInt32}
    {constants : List DataConstant} {ops : List Operation} {d d' : Draft}
    (hd : Draft.start target frame name id = .ok d) (hrun : body constants ops d = .ok () d') :
    ∃ (d₁ : Draft) (parts : List Part) (paths : List SlowPath), preparation constants ops d =
      .ok () d₁ ∧ Layout ops paths d₁ parts d' := by
  obtain ⟨_, d₁, hprepare, -⟩ := Step.bind_eq_ok.mp hrun
  have hsources :
      .prologue :: ops.map .operation = [] ++ Source.prologue :: ops.map .operation := rfl
  obtain ⟨front, back, p, paths, -, -, hlayout, -⟩ :=
    exists_layout_around hd hprepare hsources rfl hrun
  exact ⟨d₁, front ++ p :: back, paths, hprepare, hlayout⟩

/-- The operations on the code buffer of a whole method. -/
def wholeSteps (ops : List Operation) (parts : List Part) : List BufferOp :=
  .reserve (labelCount ops) :: parts.flatMap Part.steps

/-- The label is placed by an operation, for the first time at `offset`. -/
def FirstPlaced (parts : List Part) (l : Label) (offset : Nat) : Prop :=
  ∃ front p back, parts = front ++ p :: back ∧ p.source = .operation (.label l) ∧
    (∀ q ∈ front, q.source ≠ .operation (.label l)) ∧ p.before.buffer.position = offset

namespace Layout

variable {ops : List Operation} {paths : List SlowPath} {parts front back : List Part}

theorem run (h : Layout ops paths d parts d') :
    BufferOp.runAll (wholeSteps ops parts) .empty = .ok () d'.buffer :=
  BufferOp.runAll_cons.mpr ⟨d.buffer, h.start, h.chain.run h.lowered⟩

/-- Labels of a part's own are numbered behind those that operations name. -/
theorem le_of_owns (h : Layout ops paths d parts d') (hp : p ∈ parts) (hl : p.Owns l) :
    labelCount ops ≤ l.index := by
  refine Nat.le_trans ?_ hl.1
  have hsize : d.buffer.labels.size = labelCount ops := by
    rw [CodeBuffer.reserveLabels_eq_ok h.start]
    simp [CodeBuffer.withLabels, CodeBuffer.empty]
  exact hsize ▸ h.chain.le_before h.lowered hp

/-- Labels of code that is put off are numbered behind those that operations name. -/
theorem le_of_path (h : Layout ops paths d parts d') {path : SlowPath} (hp : p ∈ parts)
    (hsource : p.source = .slowPath path) (hl : l ∈ path.labels) : labelCount ops ≤ l.index := by
  have hmem : p.source ∈ Source.prologue :: ops.map Source.operation ++ paths.map Source.slowPath :=
    h.sources ▸ List.mem_map_of_mem hp
  rw [hsource] at hmem
  have hpath : path ∈ paths := by simpa using hmem
  obtain ⟨q, hq, op, -, -, howns⟩ := h.queued path hpath
  exact h.le_of_owns hq (howns l hl)

/-- A label that operations name is bound only by the operations that place it. -/
theorem bind_mem (h : Layout ops paths d parts d') (hp : p ∈ parts)
    (hl : l.index < labelCount ops) :
    .bind l ∈ p.steps ↔ p.source = .operation (.label l) := by
  have hlowered := h.lowered p hp
  constructor
  · intro hmem
    obtain hbinds | howns := hlowered.binds l hmem
    · cases hsource : p.source with
      | prologue =>
        rw [hsource] at hbinds
        exact hbinds.elim
      | operation op =>
        rw [hsource] at hbinds
        exact congrArg _ hbinds
      | slowPath path =>
        rw [hsource] at hbinds
        exact absurd (h.le_of_path hp hsource hbinds) (Nat.not_le.mpr hl)
    · exact absurd (h.le_of_owns hp howns) (Nat.not_le.mpr hl)
  · intro hsource
    rw [hlowered.spells _ hsource]
    exact List.mem_singleton_self _

/-- Where a part is found, what is in front of it is a run up to it. -/
theorem run_front (h : Layout ops paths d (front ++ p :: back) d') :
    BufferOp.runAll (wholeSteps ops front) .empty = .ok () p.before.buffer :=
  BufferOp.runAll_cons.mpr ⟨d.buffer, h.start,
    h.chain.split.1.run (List.forall_mem_append.mp h.lowered).1⟩

/-- The steps of a part occur in the run of the method. -/
theorem occurs (h : Layout ops paths d (front ++ p :: back) d') {pre post : List BufferOp}
    {step : BufferOp} {b b' : CodeBuffer} (hsteps : p.steps = pre ++ step :: post)
    (hpre : BufferOp.runAll pre p.before.buffer = .ok () b) (hstep : step.run b = .ok () b') :
    BufferOp.Occurs (wholeSteps ops (front ++ p :: back)) (wholeSteps ops front ++ pre) step b b'
      d'.buffer where
  run := h.run
  split := ⟨post ++ back.flatMap Part.steps, by simp [wholeSteps, hsteps]⟩
  run_pre := BufferOp.runAll_append.mpr ⟨_, h.run_front, hpre⟩
  run_op := hstep

/-- A label that operations name is bound first where it is placed first. -/
theorem firstBind_iff (h : Layout ops paths d parts d') (hl : l.index < labelCount ops)
    {offset : Nat} :
    BufferOp.FirstBind (wholeSteps ops parts) l offset ↔ FirstPlaced parts l offset := by
  have hfirst : ∀ offset, FirstPlaced parts l offset →
      BufferOp.FirstBind (wholeSteps ops parts) l offset := by
    rintro offset ⟨front, p, back, rfl, hsource, hfront, rfl⟩
    have hsteps : p.steps = [.bind l] := (h.lowered p (by simp)).spells _ hsource
    refine ⟨wholeSteps ops front, back.flatMap Part.steps, p.before.buffer,
      by simp [wholeSteps, hsteps], fun hmem => ?_, h.run_front, rfl⟩
    obtain hmem | hmem := List.mem_cons.mp hmem
    · cases hmem
    · obtain ⟨q, hq, hmem⟩ := List.mem_flatMap.mp hmem
      exact hfront q hq ((h.bind_mem (List.mem_append_left _ hq) hl).mp hmem)
  refine ⟨fun hbind => ?_, hfirst offset⟩
  have hmem : Source.operation (.label l) ∈ parts.map Part.source := by
    obtain ⟨pre, post, -, hwhole, -⟩ := hbind
    have hmem : .bind l ∈ wholeSteps ops parts := by simp [hwhole]
    obtain hmem | hmem := List.mem_cons.mp hmem
    · cases hmem
    · obtain ⟨p, hp, hmem⟩ := List.mem_flatMap.mp hmem
      exact List.mem_map.mpr ⟨p, hp, (h.bind_mem hp hl).mp hmem⟩
  obtain ⟨_, _, hsources, hfront⟩ := List.eq_append_cons_of_mem hmem
  obtain ⟨front, rest, hparts, rfl, hrest⟩ := List.map_eq_append_iff.mp hsources
  obtain ⟨p, back, rfl, hsource, -⟩ := List.map_eq_cons_iff.mp hrest
  have hplaced : FirstPlaced parts l p.before.buffer.position :=
    ⟨front, p, back, hparts, hsource, fun q hq hq' => hfront (List.mem_map.mpr ⟨q, hq, hq'⟩), rfl⟩
  rwa [BufferOp.firstBind_unique h.run hbind (hfirst _ hplaced)]

/-- What binds a part's own label is code of the part. -/
theorem comprises_of_binder (h : Layout ops paths d parts d')
    (hqueued : ∀ path ∈ paths, ∃ q ∈ parts, q.Enqueues path) (hp : p ∈ parts) (hq : q ∈ parts)
    (hl : p.Owns l) (hbind : .bind l ∈ q.steps) : p.Comprises q := by
  obtain hbinds | howns := (h.lowered q hq).binds l hbind
  · cases hsource : q.source with
    | prologue =>
      rw [hsource] at hbinds
      exact hbinds.elim
    | operation op =>
      rw [hsource] at hbinds
      cases hbinds
      have hmem : Source.operation (.label l) ∈ parts.map Part.source :=
        hsource ▸ List.mem_map_of_mem hq
      rw [h.sources] at hmem
      have hop : Operation.label l ∈ ops := by simpa using hmem
      have hlt : l.index < labelCount ops := lt_labelCount hop (by simp [Operation.labels])
      exact absurd (h.le_of_owns hp hl) (Nat.not_le.mpr hlt)
    | slowPath path =>
      rw [hsource] at hbinds
      have hmem : Source.slowPath path ∈ parts.map Part.source := hsource ▸ List.mem_map_of_mem hq
      rw [h.sources] at hmem
      obtain ⟨p', hp', hputs⟩ := hqueued path (by simpa using hmem)
      have hl' : p'.Owns l := by
        obtain ⟨op, -, -, howns⟩ := hputs.putsOff
        exact howns l hbinds
      cases h.chain.eq_of_owns h.lowered hp hp' hl hl'
      exact .inr ⟨path, hputs, hsource⟩
  · exact .inl (h.chain.eq_of_owns h.lowered hq hp howns hl)

end Layout

end MachineCode
